/-
The start that `_bank_group_activate_ready` returns is the least one that the
gaps and the calendar allow, and its loop ends.
-/
import HeteroSim.Dram.Activate

namespace HeteroSim.Dram

/-- A loop that raises its bound by some of the items. -/
theorem foldl_max_spec {β : Type} {p : β → Prop} [DecidablePred p] {v : β → ℚ} : ∀ (l : List β) (x : ℚ),
    let r := l.foldl (fun acc b => if p b then max acc (v b) else acc) x
    x ≤ r ∧ (∀ b ∈ l, p b → v b ≤ r) ∧ (r = x ∨ ∃ b ∈ l, p b ∧ r = v b) := by
  intro l
  induction l with
  | nil => intro x; exact ⟨le_rfl, by simp, .inl rfl⟩
  | cons b l ih =>
    intro x
    obtain ⟨hle, hall, hone⟩ := ih (if p b then max x (v b) else x)
    rw [List.foldl_cons]
    refine ⟨le_trans ?_ hle, fun a ha hp => ?_, ?_⟩
    · split
      · exact le_max_left _ _
      · exact le_rfl
    · rcases List.mem_cons.1 ha with rfl | ha
      · rw [if_pos hp] at hle ⊢
        exact (le_max_right _ _).trans hle
      · exact hall a ha hp
    · rcases hone with heq | ⟨a, ha, hp, heq⟩
      · rw [heq]
        by_cases hp : p b
        · rw [if_pos hp]
          rcases max_choice x (v b) with hmax | hmax
          · exact .inl hmax
          · exact .inr ⟨b, List.mem_cons_self, hp, hmax⟩
        · exact .inl (if_neg hp)
      · exact .inr ⟨a, List.mem_cons_of_mem b ha, hp, heq⟩

/-! ## Group gaps -/

/-- A start keeps the gaps to the recorded commands. -/
def GapsKept (history : Dict ℕ ℚ) (group : ℕ) (sameNs differentNs : ℚ) (start : ℚ) : Prop :=
  ∀ item ∈ history.items, let gap := if item.1 = group then sameNs else differentNs
    0 < gap → item.2 + gap ≤ start

/-- **The least time that keeps the gaps.** -/
theorem groupHistoryReady_least (history : Dict ℕ ℚ) (group : ℕ) (sameNs differentNs earliest : ℚ) (clockQuantum : Option ℚ) :
    IsLeast {t | earliest ≤ t ∧ GapsKept history group sameNs differentNs t}
      (groupHistoryReady history group sameNs differentNs earliest clockQuantum) := by
  have h := foldl_max_spec (p := fun item : ℕ × ℚ => 0 < if item.1 = group then sameNs else differentNs)
    (v := fun item : ℕ × ℚ => clockEnd clockQuantum item.2 (if item.1 = group then sameNs else differentNs))
    history.items earliest
  obtain ⟨hle, hall, hone⟩ := h
  refine ⟨⟨hle, fun item hitem hgap => ?_⟩, fun t ht => ?_⟩
  · have := hall item hitem hgap
    rwa [clockEnd_eq] at this
  · rcases hone with heq | ⟨item, hitem, hgap, heq⟩
    · exact heq.le.trans ht.1
    · exact heq.le.trans ((clockEnd_eq _ _ _).le.trans (ht.2 item hitem hgap))

/-! ## Windows -/

theorem take_drop_middle {α : Type} {before after : List α} {x : α} {offset : ℕ} (h : offset ≤ before.length)
    (hk : before.length - offset ≤ 4) :
    ((before ++ x :: after).drop offset).take 5 =
      before.drop offset ++ x :: after.take (4 - (before.length - offset)) := by
  rw [List.drop_append_of_le_length h, List.take_append, List.length_drop,
    List.take_of_length_le (by rw [List.length_drop]; omega),
    show 5 - (before.length - offset) = (4 - (before.length - offset)) + 1 from by omega, List.take_succ_cons]

section Windows

variable {calendar : List ℚ} {x : ℚ} {offset : ℕ}

theorem position_le (calendar : List ℚ) (x : ℚ) : bisectRight calendar x ≤ calendar.length :=
  (List.takeWhile_sublist _).length_le

theorem candidate_le (calendar : List ℚ) (x : ℚ) : candidate calendar x ≤ 4 := by
  simp only [candidate]
  omega

theorem length_before (calendar : List ℚ) (x : ℚ) :
    ((calendar.take (bisectRight calendar x)).drop (bisectRight calendar x - 4)).length = candidate calendar x := by
  rw [List.length_drop, List.length_take_of_le (position_le calendar x)]
  rfl

theorem mem_offsets : offset ∈ offsets calendar x ↔
    offset ≤ candidate calendar x ∧ offset + 5 ≤ (neighbors calendar x).length := by
  have hdrop : candidate calendar x - 4 = 0 := Nat.sub_eq_zero_of_le (candidate_le calendar x)
  simp only [offsets, hdrop, List.drop_zero, List.mem_range, lt_min_iff]
  omega

theorem fiveFrom_eq (h : offset ≤ candidate calendar x) : fiveFrom calendar x offset =
    ((calendar.take (bisectRight calendar x)).drop (bisectRight calendar x - 4)).drop offset ++
      x :: ((calendar.drop (bisectRight calendar x)).take 4).take (4 - (candidate calendar x - offset)) := by
  have hlength := length_before calendar x
  have hle := candidate_le calendar x
  rw [fiveFrom, neighbors, take_drop_middle (by omega) (by omega), hlength]

/-- **A window of the neighbors is a window of the calendar with the start
inserted.** -/
theorem fiveFrom_insort (h : offset ≤ candidate calendar x) : fiveFrom calendar x offset =
    ((insort calendar x).drop (bisectRight calendar x - 4 + offset)).take 5 := by
  have hposition : (calendar.take (bisectRight calendar x)).length = bisectRight calendar x :=
    List.length_take_of_le (position_le calendar x)
  have hc : candidate calendar x = bisectRight calendar x - (bisectRight calendar x - 4) := rfl
  rw [fiveFrom_eq h, insort_eq, take_drop_middle (by omega) (by omega), List.drop_drop, hposition, List.take_take,
    show candidate calendar x - offset = bisectRight calendar x - (bisectRight calendar x - 4 + offset) from by omega,
    min_eq_left (Nat.sub_le _ _)]

theorem length_fiveFrom (h : offset ∈ offsets calendar x) : (fiveFrom calendar x offset).length = 5 := by
  have := (mem_offsets.1 h).2
  rw [fiveFrom, List.length_take, List.length_drop]
  omega

/-- The others are activations of the calendar, and with the start they are
the window. -/
theorem otherStarts_spec (h : offset ∈ offsets calendar x) : (fiveFrom calendar x offset).Perm (x :: otherStarts calendar x offset) ∧
    (otherStarts calendar x offset).Subperm calendar ∧ (otherStarts calendar x offset).length = 4 := by
  have hle := (mem_offsets.1 h).1
  have hlength := length_fiveFrom h
  have hbefore : (((calendar.take (bisectRight calendar x)).drop (bisectRight calendar x - 4)).drop offset).length =
      candidate calendar x - offset := by
    rw [List.length_drop, length_before]
  have heq : otherStarts calendar x offset =
      ((calendar.take (bisectRight calendar x)).drop (bisectRight calendar x - 4)).drop offset ++
        ((calendar.drop (bisectRight calendar x)).take 4).take (4 - (candidate calendar x - offset)) := by
    rw [otherStarts, fiveFrom_eq hle, ← hbefore, eraseIdx_length_append]
  have hperm : (fiveFrom calendar x offset).Perm (x :: otherStarts calendar x offset) := by
    rw [heq, fiveFrom_eq hle]
    exact List.perm_middle
  refine ⟨hperm, ?_, ?_⟩
  · rw [heq]
    have hsub := List.Sublist.append
      ((List.drop_sublist offset _).trans (List.drop_sublist (bisectRight calendar x - 4) (calendar.take (bisectRight calendar x))))
      ((List.take_sublist (4 - (candidate calendar x - offset)) _).trans
        (List.take_sublist 4 (calendar.drop (bisectRight calendar x))))
    rw [List.take_append_drop] at hsub
    exact hsub.subperm
  · have := hperm.length_eq
    rw [hlength, List.length_cons] at this
    omega

theorem fiveFrom_sorted (hsorted : calendar.Pairwise (· ≤ ·)) (h : offset ∈ offsets calendar x) :
    (fiveFrom calendar x offset).Pairwise (· ≤ ·) := by
  rw [fiveFrom_insort (mem_offsets.1 h).1]
  exact (insort_sorted hsorted x).sublist ((List.take_sublist _ _).trans (List.drop_sublist _ _))

/-- A window that is too short is short between any two of its activations. -/
theorem close_of_violates {w : ℚ} (hsorted : calendar.Pairwise (· ≤ ·)) (h : offset ∈ offsets calendar x)
    (hshort : violates (· + w) (fiveFrom calendar x offset)) {a b : ℚ} (ha : a ∈ fiveFrom calendar x offset)
    (hb : b ∈ fiveFrom calendar x offset) : b < a + w := by
  have hs := fiveFrom_sorted hsorted h
  have hlength := length_fiveFrom h
  have hne : fiveFrom calendar x offset ≠ [] := List.ne_nil_of_length_eq_add_one hlength
  obtain ⟨i, hi, rfl⟩ := List.getElem_of_mem ha
  obtain ⟨j, hj, rfl⟩ := List.getElem_of_mem hb
  have hfirst : (fiveFrom calendar x offset).headD 0 ≤ (fiveFrom calendar x offset)[i] := by
    rw [List.headD_eq_head?_getD, List.head?_eq_getElem?, List.getElem?_eq_getElem (by omega)]
    exact sorted_getElem_le hs hi (Nat.zero_le i)
  have hlast : (fiveFrom calendar x offset)[j] ≤ (fiveFrom calendar x offset).getLastD 0 := by
    rw [List.getLastD_eq_getLast?, List.getLast?_eq_getElem?, List.getElem?_eq_getElem (by omega)]
    exact sorted_getElem_le hs _ (by omega)
  exact hlast.trans_lt (hshort.trans_le (add_le_add_left hfirst w))

/-- The least of the others. -/
theorem otherStarts_min (h : offset ∈ offsets calendar x) : ∃ m ∈ otherStarts calendar x offset,
    (otherStarts calendar x offset).min?.getD 0 = m ∧ ∀ a ∈ otherStarts calendar x offset, m ≤ a := by
  have hne : otherStarts calendar x offset ≠ [] := List.ne_nil_of_length_eq_add_one (otherStarts_spec h).2.2
  obtain ⟨m, hm⟩ := Option.ne_none_iff_exists'.1 (mt List.min?_eq_none_iff.1 hne)
  have hspec := List.min?_eq_some_iff.1 hm
  exact ⟨m, hspec.1, by rw [hm]; rfl, hspec.2⟩

/-- The windows that hold the start are long enough. -/
theorem spaced_of_windows {w : ℚ} (hsorted : calendar.Pairwise (· ≤ ·)) (hspaced : Spaced 4 w calendar)
    (h : ∀ offset ∈ offsets calendar x, ¬violates (· + w) (fiveFrom calendar x offset)) : Spaced 4 w (x :: calendar) := by
  have hsplit := insort_eq calendar x
  have hposition : (calendar.take (bisectRight calendar x)).length = bisectRight calendar x :=
    List.length_take_of_le (position_le calendar x)
  have hlength : (insort calendar x).length = calendar.length + 1 := (insort_perm calendar x).length_eq
  have hwhole := insort_sorted hsorted x
  refine Spaced.perm ?_ (insort_perm calendar x).symm
  rw [hsplit] at hwhole ⊢
  refine Spaced.insert (by rwa [List.take_append_drop]) hwhole fun i hi hi' hlt => ?_
  rw [hposition] at hi hi'
  have hlt' : i + 4 < (insort calendar x).length := by rwa [hsplit]
  have hc : candidate calendar x = bisectRight calendar x - (bisectRight calendar x - 4) := rfl
  have hneighbors : (neighbors calendar x).length = candidate calendar x + 1 + min 4 (calendar.length - bisectRight calendar x) := by
    rw [neighbors, List.length_append, length_before, List.length_cons, List.length_take, List.length_drop]
    omega
  have hoffset : i - (bisectRight calendar x - 4) ∈ offsets calendar x := mem_offsets.2 ⟨by omega, by omega⟩
  have hlong := not_lt.1 (h _ hoffset)
  rw [fiveFrom_insort (by omega), show bisectRight calendar x - 4 + (i - (bisectRight calendar x - 4)) = i from by omega] at hlong
  have hfive : (((insort calendar x).drop i).take 5).length = 5 := by rw [List.length_take, List.length_drop]; omega
  rw [List.headD_eq_head?_getD, List.head?_eq_getElem?, List.getElem?_eq_getElem (by omega), List.getLastD_eq_getLast?,
    List.getLast?_eq_getElem?, List.getElem?_eq_getElem (by omega)] at hlong
  simp only [Option.getD_some, List.getElem_take, List.getElem_drop, hfive] at hlong
  simpa only [hsplit, Nat.add_zero] using hlong

end Windows

/-! ## The loop -/

/-- **One round passes over no start that the calendar allows.** -/
theorem repair_chases {w : ℚ} {calendar : List ℚ} (hsorted : calendar.Pairwise (· ≤ ·)) (hspaced : Spaced 4 w calendar) :
    Chases (repair (· + w) calendar) (fun t => Spaced 4 w (t :: calendar)) (calendar.map (· + w)) := by
  have hspec := fun x => foldl_max_spec (p := fun offset => violates (· + w) (fiveFrom calendar x offset))
    (v := fun offset => (otherStarts calendar x offset).min?.getD 0 + w) (offsets calendar x) x
  -- a window that is too short moves the start
  have hmoves : ∀ x, ∀ offset ∈ offsets calendar x, violates (· + w) (fiveFrom calendar x offset) →
      x < (otherStarts calendar x offset).min?.getD 0 + w := by
    intro x offset hoffset hshort
    obtain ⟨m, hm, heq, -⟩ := otherStarts_min hoffset
    rw [heq]
    have hperm := (otherStarts_spec hoffset).1
    exact close_of_violates hsorted hoffset hshort (hperm.mem_iff.2 (List.mem_cons_of_mem x hm))
      (hperm.mem_iff.2 List.mem_cons_self)
  refine ⟨fun x hfix => ?_, fun x => (hspec x).1, fun x t hle hlt => ?_, fun x hne => ?_⟩
  · refine spaced_of_windows hsorted hspaced fun offset hoffset hshort => ?_
    have hmoved := (hmoves x offset hoffset hshort).trans_le ((hspec x).2.1 offset hoffset hshort)
    exact hmoved.ne' hfix
  · rcases (hspec x).2.2 with heq | ⟨offset, hoffset, hshort, heq⟩
    · exact absurd (hlt.trans_eq heq) hle.not_gt
    · obtain ⟨m, -, hmin, hleast⟩ := otherStarts_min hoffset
      obtain ⟨hperm, hsub, hlength⟩ := otherStarts_spec hoffset
      refine not_spaced_of_close hsub hlength (fun a ha b hb => ?_) hleast hle (hlt.trans_eq (by rw [← hmin]; exact heq))
      exact close_of_violates hsorted hoffset hshort (hperm.mem_iff.2 ha) (hperm.mem_iff.2 hb)
  · rcases (hspec x).2.2 with heq | ⟨offset, hoffset, -, heq⟩
    · exact absurd heq hne
    · obtain ⟨m, hm, hmin, -⟩ := otherStarts_min hoffset
      refine List.mem_map.2 ⟨m, (otherStarts_spec hoffset).2.1.subset hm, ?_⟩
      rw [← hmin]
      exact heq.symm

/-- **The loop ends, at the least start that the calendar allows.** -/
theorem settle_least {w : ℚ} {calendar : List ℚ} (hsorted : calendar.Pairwise (· ≤ ·)) (hspaced : Spaced 4 w calendar) {n : ℕ}
    (hn : calendar.length < n) (earliest : ℚ) : ∃ t, settle (· + w) calendar n earliest = some t ∧
      IsLeast {t | earliest ≤ t ∧ Spaced 4 w (t :: calendar)} t := by
  refine (repair_chases hsorted hspaced).chase (lt_of_le_of_lt List.countP_le_length ?_)
  rwa [List.length_map]

/-- The times from which the gaps are kept on. -/
theorem gapsKept_iff {history : Dict ℕ ℚ} {group : ℕ} {sameNs differentNs earliest t : ℚ} {clockQuantum : Option ℚ} :
    groupHistoryReady history group sameNs differentNs earliest clockQuantum ≤ t ↔
      earliest ≤ t ∧ GapsKept history group sameNs differentNs t := by
  obtain ⟨⟨hle, hkept⟩, hleast⟩ := groupHistoryReady_least history group sameNs differentNs earliest clockQuantum
  exact ⟨fun h => ⟨hle.trans h, fun item hitem hgap => (hkept item hitem hgap).trans h⟩, fun h => hleast h⟩

/-- The calendar without what has expired when a request arrives. -/
def live (w arrival : ℚ) (calendar : List ℚ) : List ℚ := calendar.dropWhile fun start => decide (start + w ≤ arrival)

theorem live_split (w arrival : ℚ) (calendar : List ℚ) :
    ∃ dropped, calendar = dropped ++ live w arrival calendar ∧ ∀ a ∈ dropped, a + w ≤ arrival := by
  refine ⟨calendar.takeWhile fun start => decide (start + w ≤ arrival), List.takeWhile_append_dropWhile.symm, fun a ha => ?_⟩
  simpa using List.mem_takeWhile_imp ha

/-- From any lower bound, the call ends with the least start that the gaps and
the calendar allow, in no more rounds than the calendar is long. -/
def SettlesLeast (c : ActivateTiming) (activate : Dict ℕ ℚ) (calendar : List ℚ) (clockQuantum : Option ℚ) : Prop :=
  ∀ (group : ℕ) (earliest arrival : ℚ), ∃ start,
    bankGroupActivateReady c activate calendar group earliest arrival clockQuantum =
      some (start, live c.fourActivateWindowNs arrival calendar) ∧
    (∀ n, (live c.fourActivateWindowNs arrival calendar).length < n →
      settle (fun s => clockEnd clockQuantum s c.fourActivateWindowNs) (live c.fourActivateWindowNs arrival calendar) n
        (groupHistoryReady activate group c.activateSameGroupNs c.activateDifferentGroupNs earliest clockQuantum) = some start) ∧
    IsLeast {t | earliest ≤ t ∧ GapsKept activate group c.activateSameGroupNs c.activateDifferentGroupNs t ∧
      Spaced 4 c.fourActivateWindowNs (t :: live c.fourActivateWindowNs arrival calendar)} start

/-- **On a spaced calendar, `_bank_group_activate_ready` ends with the least
start allowed.** -/
theorem bankGroupActivateReady_least {c : ActivateTiming} (hw : 0 < c.fourActivateWindowNs) {calendar : List ℚ}
    (hsorted : calendar.Pairwise (· ≤ ·)) (hspaced : Spaced 4 c.fourActivateWindowNs calendar) (activate : Dict ℕ ℚ)
    (clockQuantum : Option ℚ) : SettlesLeast c activate calendar clockQuantum := by
  intro group earliest arrival
  have hend : (fun s => clockEnd clockQuantum s c.fourActivateWindowNs) = (· + c.fourActivateWindowNs) :=
    funext fun s => clockEnd_eq clockQuantum s _
  obtain ⟨dropped, hdropped, -⟩ := live_split c.fourActivateWindowNs arrival calendar
  have hsub : (live c.fourActivateWindowNs arrival calendar).Sublist calendar := List.dropWhile_sublist _
  have hsettles := fun n (hn : _ < n) => settle_least (hsorted.sublist hsub) (hspaced.subperm hsub.subperm) hn
    (groupHistoryReady activate group c.activateSameGroupNs c.activateDifferentGroupNs earliest clockQuantum)
  obtain ⟨start, hstart, hleast⟩ := hsettles _ (Nat.lt_succ_self _)
  refine ⟨start, ?_, fun n hn => ?_, ⟨?_, fun t ht => ?_⟩⟩
  · simp only [bankGroupActivateReady, if_neg hw.not_ge, clockEnd_eq]
    exact congrArg (Option.map fun start => (start, live c.fourActivateWindowNs arrival calendar)) hstart
  · rw [hend]
    obtain ⟨other, hother, hleast'⟩ := hsettles n hn
    rw [hother, hleast'.unique hleast]
  · obtain ⟨hle, hkept⟩ := gapsKept_iff.1 hleast.1.1
    exact ⟨hle, hkept, hleast.1.2⟩
  · exact hleast.2 ⟨gapsKept_iff.2 ⟨ht.1, ht.2.1⟩, ht.2.2⟩

end HeteroSim.Dram
