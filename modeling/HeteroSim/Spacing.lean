/-
Times of which at most `k` lie in any window of a given width: a sorted list
of them, what may be inserted into it, and the loop that passes over what may
not.
-/
import HeteroSim.Bisect

namespace HeteroSim

variable {α : Type} {k : ℕ} {w t x m : α} {l s : List α}

theorem getElem_insert_before {i : ℕ} (hi : i < l.length) (hold : i < (l ++ s).length) (hnew : i < (l ++ x :: s).length) :
    (l ++ x :: s)[i] = (l ++ s)[i] := by
  rw [List.getElem_append_left hi, List.getElem_append_left hi]

theorem getElem_insert_after {i : ℕ} (hi : l.length ≤ i) (hold : i < (l ++ s).length)
    (hnew : i + 1 < (l ++ x :: s).length) : (l ++ x :: s)[i + 1] = (l ++ s)[i] := by
  rw [List.getElem_append_right (hi.trans (Nat.le_succ i)), List.getElem_append_right hi]
  simp only [Nat.succ_sub hi, List.getElem_cons_succ]

theorem sorted_getElem_le [LinearOrder α] (h : l.Pairwise (· ≤ ·)) {p q : ℕ} (hq : q < l.length) (hpq : p ≤ q) : l[p] ≤ l[q] := by
  rcases hpq.eq_or_lt with rfl | hlt
  · exact le_rfl
  · exact List.pairwise_iff_getElem.1 h _ _ _ _ hlt

section Crowds

variable [Add α] [LinearOrder α]

/-- How many of the times lie in the window of width `w` that opens at `t`. -/
def crowd (w t : α) (l : List α) : ℕ := l.countP fun s => decide (t ≤ s ∧ s < t + w)

/-- No window of width `w` holds more than `k` of the times. -/
def Spaced (k : ℕ) (w : α) (l : List α) : Prop := ∀ t, crowd w t l ≤ k

theorem Spaced.nil : Spaced k w [] := fun _ => Nat.zero_le _

theorem Spaced.subperm (h : Spaced k w l) (hs : s.Subperm l) : Spaced k w s :=
  fun t => (hs.countP_le _).trans (h t)

theorem Spaced.perm (h : Spaced k w l) (hp : s.Perm l) : Spaced k w s := h.subperm hp.subperm

theorem crowd_append (w t : α) (l s : List α) : crowd w t (l ++ s) = crowd w t l + crowd w t s := List.countP_append

theorem crowd_cons (w t x : α) (l : List α) : crowd w t (x :: l) = crowd w t l + if t ≤ x ∧ x < t + w then 1 else 0 := by
  simp [crowd, List.countP_cons]

theorem crowd_eq_zero (h : ∀ s ∈ l, s < t ∨ t + w ≤ s) : crowd w t l = 0 := by
  refine List.countP_eq_zero.2 fun s hs => ?_
  rcases h s hs with hlt | hle
  · simp [hlt.not_ge]
  · simp [hle.not_gt]

end Crowds

section Spaced

variable [AddCommGroup α] [LinearOrder α] [IsOrderedAddMonoid α]

/-- **Spaced times spread: of any `k + 1` of them, two are a width apart.** -/
theorem spaced_iff_spread : Spaced k w l ↔
    ∀ s : List α, s.Subperm l → s.length = k + 1 → ∃ a ∈ s, ∃ b ∈ s, a + w ≤ b := by
  constructor
  · intro h s hs hlength
    by_contra hnone
    push Not at hnone
    obtain ⟨a, ha, hleast⟩ : ∃ a ∈ s, ∀ b ∈ s, a ≤ b := by
      have hne : s ≠ [] := List.ne_nil_of_length_eq_add_one hlength
      exact ⟨s.min hne, List.min_mem hne, fun b hb => List.min_le_of_mem hb⟩
    have hall : crowd w a s = s.length :=
      List.countP_eq_length.2 fun b hb => by simp [hleast b hb, hnone a ha b hb]
    have := (h.subperm hs) a
    omega
  · intro h t
    by_contra hmore
    have hin : ∀ b ∈ l.filter fun s => decide (t ≤ s ∧ s < t + w), t ≤ b ∧ b < t + w :=
      fun b hb => of_decide_eq_true (List.mem_filter.1 hb).2
    rw [crowd, List.countP_eq_length_filter] at hmore
    obtain ⟨a, ha, b, hb, hab⟩ := h ((l.filter fun s => decide (t ≤ s ∧ s < t + w)).take (k + 1))
      ((List.take_sublist _ _).trans List.filter_sublist).subperm (by rw [List.length_take]; omega)
    have hta := (hin a (List.mem_of_mem_take ha)).1
    have hbt := (hin b (List.mem_of_mem_take hb)).2
    exact absurd (hab.trans_lt hbt) (add_le_add_left hta w).not_gt

/-- Where too many times are in a window, a time and the `k`th after it are. -/
theorem exists_close : ∀ {l : List α}, l.Pairwise (· ≤ ·) → ∀ {t : α}, k < crowd w t l →
    ∃ i, ∃ h : i + k < l.length, l[i + k] < l[i] + w := by
  intro l
  induction l with
  | nil => intro _ t h; exact absurd h (Nat.not_lt_zero _)
  | cons a l ih =>
    intro hsorted t h
    by_cases hbefore : a < t
    · rw [crowd_cons, if_neg fun hin => hbefore.not_ge hin.1] at h
      obtain ⟨i, hi, hclose⟩ := ih hsorted.of_cons h
      refine ⟨i + 1, by rw [List.length_cons]; omega, ?_⟩
      simpa only [Nat.add_right_comm i 1 k, List.getElem_cons_succ] using hclose
    · have hk : k < (a :: l).length := h.trans_le List.countP_le_length
      refine ⟨0, by omega, ?_⟩
      simp only [Nat.zero_add, List.getElem_cons_zero]
      by_contra hfar
      have htail : crowd w t ((a :: l).drop k) = 0 := by
        refine crowd_eq_zero fun s hs => .inr ?_
        obtain ⟨j, hj, rfl⟩ := List.getElem_of_mem hs
        rw [List.length_drop] at hj
        rw [List.getElem_drop]
        exact (add_le_add_left (not_lt.1 hbefore) w).trans
          ((not_lt.1 hfar).trans (sorted_getElem_le hsorted _ (Nat.le_add_right k j)))
      have hcount := crowd_append w t ((a :: l).take k) ((a :: l).drop k)
      rw [List.take_append_drop, htail] at hcount
      have hhead : crowd w t ((a :: l).take k) ≤ k := List.countP_le_length.trans (List.length_take_le _ _)
      omega

/-- On sorted spaced times, a time and the `k`th after it are a width apart. -/
theorem Spaced.far (h : Spaced k w l) (hsorted : l.Pairwise (· ≤ ·)) {i : ℕ} (hi : i + k < l.length) :
    l[i] + w ≤ l[i + k] := by
  have hmem : ∀ a ∈ (l.drop i).take (k + 1), l[i] ≤ a ∧ a ≤ l[i + k] := by
    intro a ha
    obtain ⟨j, hj, rfl⟩ := List.getElem_of_mem ha
    rw [List.length_take, List.length_drop] at hj
    rw [List.getElem_take, List.getElem_drop]
    exact ⟨sorted_getElem_le hsorted _ (by omega), sorted_getElem_le hsorted _ (by omega)⟩
  obtain ⟨a, ha, b, hb, hab⟩ := spaced_iff_spread.1 h ((l.drop i).take (k + 1))
    ((List.take_sublist _ _).trans (List.drop_sublist _ _)).subperm (by rw [List.length_take, List.length_drop]; omega)
  calc l[i] + w ≤ a + w := add_le_add_left (hmem a ha).1 w
    _ ≤ b := hab
    _ ≤ l[i + k] := (hmem b hb).2

/-! ## Insertions -/

/-- **A time may be inserted where the windows it would be in allow it.** -/
theorem Spaced.insert (h : Spaced k w (l ++ s)) (hsorted : (l ++ x :: s).Pairwise (· ≤ ·))
    (hin : ∀ i, i ≤ l.length → l.length ≤ i + k → ∀ hi : i + k < (l ++ x :: s).length,
      (l ++ x :: s)[i] + w ≤ (l ++ x :: s)[i + k]) : Spaced k w (l ++ x :: s) := by
  intro t
  by_contra hmore
  obtain ⟨i, hi, hclose⟩ := exists_close hsorted (not_le.1 hmore)
  have hold : (l ++ s).Pairwise (· ≤ ·) :=
    hsorted.sublist (List.Sublist.append_left (List.sublist_cons_self x s) l)
  have hnew : (l ++ x :: s).length = (l ++ s).length + 1 := by simp only [List.length_append, List.length_cons]; omega
  have hlength : (l ++ s).length = l.length + s.length := List.length_append
  by_cases hbefore : i + k < l.length
  · -- the window ends before `x`
    rw [getElem_insert_before hbefore (by omega) hi, getElem_insert_before (by omega) (by omega) (by omega)] at hclose
    exact hclose.not_ge (h.far hold _)
  by_cases hafter : l.length < i
  · -- the window begins after `x`
    obtain ⟨j, rfl⟩ := Nat.exists_eq_add_of_lt hafter
    have hfar := h.far hold (i := l.length + j) (by omega)
    rw [← getElem_insert_after (x := x) (s := s) (by omega) (by omega) (by omega),
      ← getElem_insert_after (x := x) (s := s) (by omega) (by omega) (by omega)] at hfar
    simp only [Nat.add_right_comm _ 1 k] at hclose
    exact hclose.not_ge hfar
  · exact hclose.not_ge (hin i (not_lt.1 hafter) (not_lt.1 hbefore) hi)

/-- Where a time is close to `k` others, no time up to the end of the window
of the first of these may be inserted. -/
theorem not_spaced_of_close (hs : s.Subperm l) (hlength : s.length = k)
    (hclose : ∀ a ∈ x :: s, ∀ b ∈ x :: s, b < a + w) (hm : ∀ a ∈ s, m ≤ a) (hx : x ≤ t) (ht : t < m + w) :
    ¬Spaced k w (t :: l) := by
  intro h
  obtain ⟨a, ha, b, hb, hab⟩ := spaced_iff_spread.1 h (t :: s) ((List.subperm_cons t).2 hs) (by rw [List.length_cons, hlength])
  refine hab.not_gt ?_
  rcases List.mem_cons.1 ha with rfl | has <;> rcases List.mem_cons.1 hb with rfl | hbs
  · have hpos : 0 < w := by simpa using hclose x List.mem_cons_self x List.mem_cons_self
    exact lt_add_of_pos_right _ hpos
  · exact (hclose x List.mem_cons_self b (List.mem_cons_of_mem x hbs)).trans_le (add_le_add_left hx w)
  · exact ht.trans_le (add_le_add_left (hm a has) w)
  · exact hclose a (List.mem_cons_of_mem x has) b (List.mem_cons_of_mem x hbs)

/-- **What ended before a time does not count for it.** -/
theorem Spaced.cons_expired (h : Spaced k w (s ++ l)) (hx : Spaced k w (x :: l)) (hs : ∀ a ∈ s, a + w ≤ x) :
    Spaced k w (x :: (s ++ l)) := by
  intro t
  by_cases hin : t ≤ x ∧ x < t + w
  · have hnone : crowd w t s = 0 :=
      crowd_eq_zero fun a ha => .inl (lt_of_add_lt_add_right ((hs a ha).trans_lt hin.2))
    have := hx t
    rw [crowd_cons, if_pos hin] at this ⊢
    rw [crowd_append]
    omega
  · rw [crowd_cons, if_neg hin]
    exact h t

end Spaced

/-! ## Calendars -/

section Insort

variable [LinearOrder α]

/-- `bisect_right` -/
def bisectRight (l : List α) (x : α) : ℕ := bisectLeft (fun b => decide (b ≤ x)) l

/-- `insort` -/
def insort (l : List α) (x : α) : List α := l.insertIdx (bisectRight l x) x

theorem take_bisectRight (l : List α) (x : α) : l.take (bisectRight l x) = l.takeWhile fun b => decide (b ≤ x) :=
  take_bisectLeft _ l

theorem drop_bisectRight (l : List α) (x : α) : l.drop (bisectRight l x) = l.dropWhile fun b => decide (b ≤ x) := by
  have hsplit := List.takeWhile_append_dropWhile (p := fun b => decide (b ≤ x)) (l := l)
  have hlength : bisectRight l x = (l.takeWhile fun b => decide (b ≤ x)).length := rfl
  rw [hlength]
  nth_rewrite 2 [← hsplit]
  exact List.drop_left

theorem insort_eq (l : List α) (x : α) : insort l x = l.take (bisectRight l x) ++ x :: l.drop (bisectRight l x) := by
  have hle : bisectRight l x ≤ l.length := by
    rw [bisectRight, bisectLeft]
    exact (List.takeWhile_sublist _).length_le
  have h := insertIdx_length_append (l.take (bisectRight l x)) x (l.drop (bisectRight l x))
  rwa [List.take_append_drop, List.length_take_of_le hle] at h

theorem insort_perm (l : List α) (x : α) : (insort l x).Perm (x :: l) := by
  rw [insort_eq]
  exact List.perm_middle.trans (.of_eq (by rw [List.take_append_drop]))

theorem insort_sorted (h : l.Pairwise (· ≤ ·)) (x : α) : (insort l x).Pairwise (· ≤ ·) := by
  have hsplit : (l.take (bisectRight l x) ++ l.drop (bisectRight l x)).Pairwise (· ≤ ·) := by rwa [List.take_append_drop]
  rw [List.pairwise_append] at hsplit
  have hafter : ∀ b ∈ l.drop (bisectRight l x), x ≤ b := by
    intro b hb
    rw [drop_bisectRight] at hb hsplit
    have hhead := List.head?_dropWhile_not (fun b => decide (b ≤ x)) l
    cases hdrop : l.dropWhile fun b => decide (b ≤ x) with
    | nil => rw [hdrop] at hb; cases hb
    | cons c rest =>
      rw [hdrop] at hb hhead hsplit
      have hc : x < c := by simpa using hhead
      rcases List.mem_cons.1 hb with rfl | hb
      · exact hc.le
      · exact hc.le.trans (List.rel_of_pairwise_cons hsplit.2.1 hb)
  have hbefore : ∀ a ∈ l.take (bisectRight l x), a ≤ x := by
    intro a ha
    rw [take_bisectRight] at ha
    simpa using List.mem_takeWhile_imp ha
  rw [insort_eq, List.pairwise_append, List.pairwise_cons]
  refine ⟨hsplit.1, ⟨hafter, hsplit.2.1⟩, fun a ha b hb => ?_⟩
  rcases List.mem_cons.1 hb with rfl | hb
  · exact hbefore a ha
  · exact hsplit.2.2 a ha b hb

end Insort

section Calendar

variable {starts window dropped : List α} {f g : α}

section Kept

variable [Add α] [LinearOrder α]

/-- Of the spaced `starts`, the `window` is kept in order; the others ended
by the time `f`. -/
structure Calendar (k : ℕ) (w f : α) (starts window : List α) : Prop where
  sorted : window.Pairwise (· ≤ ·)
  spaced : Spaced k w starts
  kept : ∃ expired : List α, (expired ++ window).Perm starts ∧ ∀ a ∈ expired, a + w ≤ f

theorem Calendar.nil (k : ℕ) (w f : α) : Calendar k w f [] [] := ⟨.nil, .nil, [], .refl _, by simp⟩

theorem Calendar.window_spaced (h : Calendar k w f starts window) : Spaced k w window := by
  obtain ⟨expired, hperm, -⟩ := h.kept
  exact h.spaced.subperm ((List.sublist_append_right expired window).subperm.trans hperm.subperm)

/-- What ended since is pruned. -/
theorem Calendar.prune (h : Calendar k w f starts (dropped ++ window)) (hfg : f ≤ g) (hdropped : ∀ a ∈ dropped, a + w ≤ g) :
    Calendar k w g starts window := by
  obtain ⟨expired, hperm, hexpired⟩ := h.kept
  refine ⟨h.sorted.sublist (List.sublist_append_right dropped window), h.spaced, expired ++ dropped, ?_, fun a ha => ?_⟩
  · rwa [List.append_assoc]
  · rcases List.mem_append.1 ha with ha | ha
    · exact (hexpired a ha).trans hfg
    · exact hdropped a ha

theorem Calendar.mono (h : Calendar k w f starts window) (hfg : f ≤ g) : Calendar k w g starts window :=
  (show Calendar k w f starts ([] ++ window) from h).prune hfg (by simp)

end Kept

/-- **A start that the window allows, not before what was pruned ended, is
allowed by all the starts.** More may be pruned before it is recorded. -/
theorem Calendar.record [AddCommGroup α] [LinearOrder α] [IsOrderedAddMonoid α]
    (h : Calendar k w f starts (dropped ++ window)) (hx : Spaced k w (x :: (dropped ++ window))) (hf : f ≤ x) (hfg : f ≤ g)
    (hdropped : ∀ a ∈ dropped, a + w ≤ g) : Calendar k w g (x :: starts) (insort window x) := by
  obtain ⟨expired, hperm, hexpired⟩ := h.kept
  have hall : Spaced k w (x :: (expired ++ (dropped ++ window))) :=
    Spaced.cons_expired (h.spaced.perm hperm) hx fun a ha => (hexpired a ha).trans hf
  have hpruned := h.prune hfg hdropped
  refine ⟨insort_sorted hpruned.sorted x, hall.perm (hperm.symm.cons x), expired ++ dropped, ?_, fun a ha => ?_⟩
  · calc (expired ++ dropped ++ insort window x).Perm (expired ++ dropped ++ x :: window) :=
          (insort_perm window x).append_left _
      _ |>.Perm (x :: (expired ++ dropped ++ window)) := List.perm_middle
      _ |>.Perm (x :: starts) := by rw [List.append_assoc]; exact hperm.cons x
  · rcases List.mem_append.1 ha with ha | ha
    · exact (hexpired a ha).trans hfg
    · exact hdropped a ha

end Calendar

/-! ## Chasing -/

section Chase

variable [LinearOrder α] {next : α → α} {good : α → Prop} {targets : List α}

/-- `next` again and again, until it changes nothing. -/
def chase (next : α → α) : ℕ → α → Option α
  | 0, _ => none
  | n + 1, x => if next x = x then some x else chase next n (next x)

/-- `next` passes over nothing good, on to one of the targets. -/
structure Chases (next : α → α) (good : α → Prop) (targets : List α) : Prop where
  settled : ∀ x, next x = x → good x
  le : ∀ x, x ≤ next x
  skips : ∀ x t, x ≤ t → t < next x → ¬good t
  target : ∀ x, next x ≠ x → next x ∈ targets

/-- **The chase ends at the least good element that is not before its start.** -/
theorem Chases.chase (h : Chases next good targets) {n : ℕ} : ∀ {x : α}, targets.countP (fun t => decide (x < t)) < n →
    ∃ t, chase next n x = some t ∧ IsLeast {t | x ≤ t ∧ good t} t := by
  induction n with
  | zero => intro x hn; exact absurd hn (Nat.not_lt_zero _)
  | succ n ih =>
    intro x hn
    rw [HeteroSim.chase]
    by_cases hfix : next x = x
    · exact ⟨x, if_pos hfix, ⟨le_rfl, h.settled x hfix⟩, fun t ht => ht.1⟩
    have hlt : x < next x := (h.le x).lt_of_ne (Ne.symm hfix)
    -- the target reached is left behind
    have hfewer : targets.countP (fun t => decide (next x < t)) < targets.countP (fun t => decide (x < t)) := by
      obtain ⟨before, after, htargets⟩ := List.append_of_mem (h.target x hfix)
      rw [htargets, List.countP_append, List.countP_append, List.countP_cons, List.countP_cons,
        if_neg (by simp), if_pos (by simpa using hlt)]
      have hmono : ∀ l : List α, l.countP (fun t => decide (next x < t)) ≤ l.countP (fun t => decide (x < t)) :=
        fun l => List.countP_mono_left fun t _ ht => decide_eq_true (hlt.trans (of_decide_eq_true ht))
      have := hmono before
      have := hmono after
      omega
    obtain ⟨t, hchase, ⟨hle, hgood⟩, hleast⟩ := ih (x := next x) (by omega)
    refine ⟨t, by rw [if_neg hfix, hchase], ⟨hlt.le.trans hle, hgood⟩, fun u hu => hleast ⟨?_, hu.2⟩⟩
    by_contra hbefore
    exact h.skips x u hu.1 (not_le.1 hbefore) hu.2

end Chase

end HeteroSim
