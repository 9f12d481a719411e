/-
Least recently used: a list of keys, the oldest first, that a touch moves to
the end or appends, the oldest making room at a bound. What such a list holds
is what was touched, and not dropped since, with fewer than the bound's
keys touched after it at every moment.
-/
import Mathlib

namespace HeteroSim.Recency

variable {α : Type} [DecidableEq α]

inductive Event (α : Type)
  | touch (k : α)
  | drop (p : α → Bool)

def extend (l : List α) : Event α → List α
  | .touch k => l ++ [k]
  | .drop p => l.filter fun k => !p k

/-- The touches, less those dropped since. -/
def live (es : List (Event α)) : List α := es.foldl extend []

/-- One event of a list of at most `cap` keys. -/
def use (cap : ℕ) (l : List α) : Event α → List α
  | .touch k => if k ∈ l then l.erase k ++ [k] else (if l.length < cap then l else l.tail) ++ [k]
  | .drop p => l.filter fun k => !p k

def held (cap : ℕ) (es : List (Event α)) : List α := es.foldl (use cap) []

/-- What stands after `k`. -/
def newer (k : α) (l : List α) : List α := (l.dropWhile (· ≠ k)).tail

omit [DecidableEq α] in
@[simp] theorem live_snoc (es : List (Event α)) (e : Event α) : live (es ++ [e]) = extend (live es) e := by
  simp [live]

@[simp] theorem held_snoc (cap : ℕ) (es : List (Event α)) (e : Event α) : held cap (es ++ [e]) = use cap (held cap es) e := by
  simp [held]

theorem use_touch (cap : ℕ) (l : List α) (k : α) : use cap l (.touch k) =
    if k ∈ l then l.erase k ++ [k] else (if l.length < cap then l else l.tail) ++ [k] := rfl

theorem newer_split {k : α} : ∀ {a b : List α}, k ∉ a → newer k (a ++ k :: b) = b
  | [], b, _ => by simp [newer]
  | x :: a, b, h => by
    rw [List.mem_cons, not_or] at h
    have ih := newer_split (b := b) h.2
    unfold newer at ih ⊢
    rw [List.cons_append, List.dropWhile_cons_of_pos (by simpa using Ne.symm h.1)]
    exact ih

/-- Touching again leaves the last touch. -/
theorem dedup_snoc (k : α) : ∀ l : List α, (l ++ [k]).dedup = l.dedup.erase k ++ [k]
  | [] => by simp
  | a :: l => by
    have ih := dedup_snoc k l
    rw [List.cons_append]
    by_cases ha : a ∈ l
    · rw [List.dedup_cons_of_mem (by simp [ha]), List.dedup_cons_of_mem ha, ih]
    · by_cases hk : a = k
      · subst hk
        rw [List.dedup_cons_of_mem (by simp), List.dedup_cons_of_notMem ha, ih, List.erase_cons_head,
          List.erase_of_not_mem (by simpa using ha)]
      · rw [List.dedup_cons_of_notMem (by simp [ha, hk]), List.dedup_cons_of_notMem ha, ih,
          List.erase_cons_tail (by simpa using hk)]
        rfl

theorem dedup_filter (p : α → Bool) : ∀ l : List α, (l.filter p).dedup = l.dedup.filter p
  | [] => rfl
  | a :: l => by
    have ih := dedup_filter p l
    by_cases hp : p a = true
    · rw [List.filter_cons_of_pos hp]
      by_cases ha : a ∈ l
      · rw [List.dedup_cons_of_mem (List.mem_filter.2 ⟨ha, hp⟩), List.dedup_cons_of_mem ha, ih]
      · have hnot : a ∉ l.filter p := fun hm => ha (List.mem_of_mem_filter hm)
        rw [List.dedup_cons_of_notMem hnot, List.dedup_cons_of_notMem ha, ih, List.filter_cons_of_pos hp]
    · rw [List.filter_cons_of_neg hp, ih]
      by_cases ha : a ∈ l
      · rw [List.dedup_cons_of_mem ha]
      · rw [List.dedup_cons_of_notMem ha, List.filter_cons_of_neg hp]

/-! ## The newest of what was touched -/

/-- The keys held are the newest of all the live ones, at most `cap` of them. -/
structure Newest (cap : ℕ) (l all : List α) : Prop where
  suffix : l <:+ all
  length : l.length ≤ cap

theorem Newest.use {cap : ℕ} {l all : List α} (h : Newest cap l all.dedup) (hcap : 0 < cap) (e : Event α) :
    Newest cap (use cap l e) (extend all e).dedup := by
  obtain ⟨p, hp⟩ := h.suffix
  have hnodup : (p ++ l).Nodup := hp ▸ all.nodup_dedup
  have hlength := h.length
  cases e with
  | drop q =>
    refine ⟨?_, (List.length_filter_le _ _).trans hlength⟩
    rw [extend, dedup_filter, ← hp, List.filter_append]
    exact List.suffix_append _ _
  | touch k =>
    rw [extend, dedup_snoc, ← hp, use_touch]
    by_cases hk : k ∈ l
    · rw [if_pos hk]
      have hkp : k ∉ p := fun hm => (List.nodup_append.1 hnodup).2.2 _ hm _ hk rfl
      refine ⟨⟨p, ?_⟩, ?_⟩
      · rw [List.erase_append_right _ hkp, List.append_assoc]
      · rw [List.length_append, List.length_erase_of_mem hk, List.length_singleton]
        have := List.length_pos_of_mem hk
        omega
    · rw [if_neg hk]
      have herase : ∃ q, (p ++ l).erase k = q ++ l := by
        by_cases hkp : k ∈ p
        · exact ⟨p.erase k, List.erase_append_left _ hkp⟩
        · exact ⟨p, List.erase_of_not_mem (by simp [hkp, hk])⟩
      obtain ⟨q, hq⟩ := herase
      rw [hq]
      split
      · refine ⟨⟨q, (List.append_assoc _ _ _).symm⟩, ?_⟩
        rw [List.length_append, List.length_singleton]
        omega
      · refine ⟨⟨q ++ l.take 1, ?_⟩, ?_⟩
        · rw [List.append_assoc, ← List.append_assoc (l.take 1), ← List.drop_one, List.take_append_drop, List.append_assoc]
        · rw [List.length_append, List.length_tail, List.length_singleton]
          omega

theorem newest_held {cap : ℕ} (hcap : 0 < cap) (es : List (Event α)) : Newest cap (held cap es) (live es).dedup := by
  induction es using List.reverseRecOn with
  | nil => exact ⟨List.suffix_rfl, Nat.zero_le _⟩
  | append_singleton es e ih =>
    rw [held_snoc, live_snoc]
    exact ih.use hcap e

/-- Another key's touch drives `k` out when `cap` keys have come after it. -/
theorem Newest.mem_touch {cap : ℕ} {l all : List α} (h : Newest cap l all.dedup) {k x : α} (hk : k ∈ l) (hx : k ≠ x) :
    k ∈ Recency.use cap l (.touch x) ↔ (newer k (extend all (.touch x)).dedup).length < cap := by
  obtain ⟨p, hp⟩ := h.suffix
  obtain ⟨a, b, rfl⟩ := List.append_of_mem hk
  have hnodup : (p ++ (a ++ k :: b)).Nodup := hp ▸ all.nodup_dedup
  have hlength := h.length
  rw [List.length_append, List.length_cons] at hlength
  rw [← List.append_assoc] at hp hnodup
  have hkpa : k ∉ p ++ a := fun hm => (List.nodup_append.1 hnodup).2.2 _ hm _ (by simp) rfl
  have hka : k ∉ a := fun hm => hkpa (by simp [hm])
  have hkb : k ∉ b := (List.nodup_cons.1 (List.nodup_append.1 hnodup).2.1).1
  rw [extend, dedup_snoc, ← hp]
  by_cases hxb : x ∈ b
  · have hxpa : x ∉ p ++ a := fun hm => (List.nodup_append.1 hnodup).2.2 _ hm _ (by simp [hxb]) rfl
    have hxa : x ∉ a := fun hm => hxpa (by simp [hm])
    have herase : (p ++ a ++ k :: b).erase x = p ++ a ++ k :: b.erase x := by
      rw [List.erase_append_right _ hxpa, List.erase_cons_tail (by simpa using hx)]
    rw [herase, List.append_assoc, List.cons_append, newer_split hkpa, List.length_append, List.length_erase_of_mem hxb,
      List.length_singleton, use_touch, if_pos (by simp [hxb]), List.erase_append_right _ hxa,
      List.erase_cons_tail (by simpa using hx)]
    have := List.length_pos_of_mem hxb
    simp only [List.mem_append, List.mem_cons, true_or, or_true, true_iff]
    omega
  · have hxkb : x ∉ k :: b := by simp [hxb, Ne.symm hx]
    have herase : (p ++ a ++ k :: b).erase x = (p ++ a).erase x ++ k :: b := by
      by_cases hxpa : x ∈ p ++ a
      · exact List.erase_append_left _ hxpa
      · rw [List.erase_of_not_mem hxpa, List.erase_of_not_mem]
        intro hm
        exact (List.mem_append.1 hm).elim hxpa hxkb
    have hkerase : k ∉ (p ++ a).erase x := fun hm => hkpa (List.mem_of_mem_erase hm)
    rw [herase, List.append_assoc, List.cons_append, newer_split hkerase, List.length_append, List.length_singleton, use_touch]
    by_cases hxa : x ∈ a
    · have := List.length_pos_of_mem hxa
      rw [if_pos (by simp [hxa]), List.erase_append_left _ hxa]
      simp only [List.mem_append, List.mem_cons, true_or, or_true, true_iff]
      omega
    · rw [if_neg (by simp [hxa, hxb, Ne.symm hx]), List.length_append, List.length_cons]
      split
      · simp only [List.mem_append, List.mem_cons, true_or, or_true, true_iff]
        omega
      · -- a full list: only its head goes
        cases a with
        | nil =>
          simp only [List.nil_append, List.tail_cons, List.mem_append, hkb, List.mem_singleton, hx, or_self, false_iff]
          simp only [List.length_nil] at *
          omega
        | cons y a =>
          simp only [List.cons_append, List.tail_cons, List.mem_append, List.mem_cons, true_or, or_true, true_iff]
          simp only [List.length_cons] at *
          omega

theorem newer_filter_length (q : α → Bool) {k : α} {l : List α} (hk : k ∈ l) (hq : q k = true) :
    (newer k (l.filter q)).length ≤ (newer k l).length := by
  obtain ⟨a, b, rfl, ha⟩ : ∃ a b, l = a ++ k :: b ∧ k ∉ a := by
    obtain ⟨a, b, hl, ha⟩ := List.eq_append_cons_of_mem hk
    exact ⟨a, b, hl, ha⟩
  rw [List.filter_append, List.filter_cons_of_pos hq, newer_split fun hm => ha (List.mem_of_mem_filter hm), newer_split ha]
  exact List.length_filter_le _ _

theorem Newest.newer_lt {cap : ℕ} {l all : List α} (h : Newest cap l all.dedup) {k : α} (hk : k ∈ l) :
    (newer k all.dedup).length < cap := by
  obtain ⟨p, hp⟩ := h.suffix
  obtain ⟨a, b, rfl⟩ := List.append_of_mem hk
  have hnodup : (p ++ (a ++ k :: b)).Nodup := hp ▸ all.nodup_dedup
  have hlength := h.length
  rw [List.length_append, List.length_cons] at hlength
  rw [← List.append_assoc] at hp hnodup
  rw [← hp, newer_split fun hm => (List.nodup_append.1 hnodup).2.2 _ hm _ (by simp) rfl]
  omega

/-- **What is held**: a live key that, since its last touch, never had `cap` live keys touched after it. -/
theorem mem_held {cap : ℕ} (hcap : 0 < cap) {k : α} (es : List (Event α)) : k ∈ held cap es ↔ k ∈ live es ∧
    ∀ before rest, es = before ++ rest → .touch k ∉ rest → (newer k (live before).dedup).length < cap := by
  induction es using List.reverseRecOn with
  | nil => simp [held, live]
  | append_singleton es e ih =>
    have hnewest := newest_held hcap es
    have hnext := newest_held hcap (es ++ [e])
    -- the moments of the longer history are its end and the moments before
    have hsplit : ∀ P : List (Event α) → Prop,
        (∀ before rest, es ++ [e] = before ++ rest → .touch k ∉ rest → P before) ↔
          P (es ++ [e]) ∧ (.touch k ≠ e → ∀ before rest, es = before ++ rest → .touch k ∉ rest → P before) := by
      intro P
      constructor
      · intro h
        refine ⟨h _ [] (by simp) (by simp), fun hne before rest heq hrest => h before (rest ++ [e]) ?_ ?_⟩
        · rw [heq, List.append_assoc]
        · simp [hrest, hne]
      · rintro ⟨hend, hbefore⟩ before rest heq hrest
        rcases List.eq_nil_or_concat rest with rfl | ⟨rest', e', rfl⟩
        · rw [List.append_nil] at heq
          exact heq ▸ hend
        · rw [List.concat_eq_append, ← List.append_assoc] at heq
          obtain ⟨heq, he⟩ := List.append_inj' heq rfl
          rw [List.cons.injEq] at he
          rw [List.concat_eq_append, List.mem_append, not_or, List.mem_singleton] at hrest
          exact hbefore (he.1 ▸ hrest.2) before rest' heq hrest.1
    rw [hsplit, live_snoc, held_snoc]
    rw [live_snoc, held_snoc] at hnext
    cases e with
    | drop q =>
      have hlive : k ∈ live es → q k = false → (newer k (live es).dedup).length < cap →
          (newer k (extend (live es) (.drop q)).dedup).length < cap := by
        intro hk hq hlt
        rw [extend, dedup_filter]
        exact (newer_filter_length _ (by simpa using hk) (by simp [hq])).trans_lt hlt
      have hlast : k ∈ held cap es → (newer k (live es).dedup).length < cap := hnewest.newer_lt
      simp only [use, extend, List.mem_filter, Bool.not_eq_true', ne_eq, reduceCtorEq, not_false_eq_true, true_imp_iff]
      simp only [extend] at hlive
      constructor
      · rintro ⟨hk, hq⟩
        obtain ⟨hkl, hmoments⟩ := ih.1 hk
        exact ⟨⟨hkl, hq⟩, hlive hkl hq (hlast hk), hmoments⟩
      · rintro ⟨⟨hkl, hq⟩, -, hmoments⟩
        exact ⟨ih.2 ⟨hkl, hmoments⟩, hq⟩
    | touch x =>
      by_cases hx : k = x
      · subst hx
        have hin : k ∈ use cap (held cap es) (.touch k) := by
          rw [use_touch]
          split <;> simp
        simp only [hin, true_iff]
        refine ⟨by simp [extend], hnext.newer_lt hin, fun hne => absurd rfl hne⟩
      · have hne : (.touch k : Event α) ≠ .touch x := by simpa using hx
        have hmem : k ∈ extend (live es) (.touch x) ↔ k ∈ live es := by simp [extend, hx]
        rw [hmem]
        constructor
        · intro hk
          have hheld : k ∈ held cap es := by
            rw [use_touch] at hk
            split at hk
            · rw [List.mem_append, List.mem_singleton, or_iff_left hx] at hk
              exact List.mem_of_mem_erase hk
            · rw [List.mem_append, List.mem_singleton, or_iff_left hx] at hk
              split at hk
              · exact hk
              · exact List.mem_of_mem_tail hk
          obtain ⟨hkl, hmoments⟩ := ih.1 hheld
          exact ⟨hkl, (hnewest.mem_touch hheld hx).1 hk, fun _ => hmoments⟩
        · rintro ⟨hkl, hend, hmoments⟩
          exact (hnewest.mem_touch (ih.2 ⟨hkl, hmoments hne⟩) hx).2 hend

/-! ## Without drops -/

/-- As long as all the live keys fit they are all held, and after that the list is full. -/
theorem Newest.length_touch {cap : ℕ} {l all : List α} (h : Newest cap l all.dedup) (hcap : 0 < cap)
    (hlength : l.length = min cap all.dedup.length) (k : α) :
    (Recency.use cap l (.touch k)).length = min cap (extend all (.touch k)).dedup.length := by
  obtain ⟨p, hp⟩ := h.suffix
  rw [← hp, List.length_append] at hlength
  rw [extend, dedup_snoc, ← hp, use_touch, List.length_append, List.length_singleton]
  by_cases hk : k ∈ l
  · rw [if_pos hk, List.length_append, List.length_singleton, List.length_erase_of_mem hk,
      List.length_erase_of_mem (by simp [hk]), List.length_append]
    have := List.length_pos_of_mem hk
    omega
  · rw [if_neg hk, List.length_append, List.length_singleton]
    by_cases hkp : k ∈ p
    · have := List.length_pos_of_mem hkp
      rw [List.length_erase_of_mem (by simp [hkp]), List.length_append, if_neg (by omega), List.length_tail]
      omega
    · rw [List.erase_of_not_mem (by simp [hk, hkp]), List.length_append]
      split
      · omega
      · rw [List.length_tail]
        omega

omit [DecidableEq α] in
theorem live_touches (ks : List α) : live (ks.map .touch) = ks := by
  induction ks using List.reverseRecOn with
  | nil => rfl
  | append_singleton ks k ih => rw [List.map_append, List.map_singleton, live_snoc, ih, extend]

/-- Until something is dropped, the last `cap` distinct keys. -/
theorem held_touches {cap : ℕ} (hcap : 0 < cap) (ks : List α) :
    held cap (ks.map .touch) = ks.dedup.drop (ks.dedup.length - cap) := by
  have hlength : (held cap (ks.map .touch)).length = min cap ks.dedup.length := by
    induction ks using List.reverseRecOn with
    | nil => simp [held]
    | append_singleton ks k ih =>
      have hnewest := newest_held hcap (ks.map .touch)
      rw [live_touches] at hnewest
      rw [List.map_append, List.map_singleton, held_snoc]
      exact hnewest.length_touch hcap ih k
  obtain ⟨p, hp⟩ := (newest_held hcap (ks.map .touch)).suffix
  rw [live_touches] at hp
  rw [← hp, List.length_append] at hlength ⊢
  have hdrop : p.length + (held cap (ks.map .touch)).length - cap = p.length := by omega
  rw [hdrop, List.drop_left]

end HeteroSim.Recency
