/-
The ids seen are the ids of the history, expanded. A name and a base id that
meet another name and base id share the longer of the two names up to the
shorter, so one of the two scans for collisions finds them.
-/
import HeteroSim.Kernel.SeenIds

namespace HeteroSim.Kernel

/-- What a call that returned leaves in the history. -/
inductive Entry
  | submitted (ids : List String)
  | registered (name : String) (baseIds : List String)

/-- The task ids of a history. -/
def Expanded (history : List Entry) (t : String) : Prop :=
  (∃ ids, .submitted ids ∈ history ∧ t ∈ ids) ∨
    ∃ name baseIds, .registered name baseIds ∈ history ∧ ∃ b ∈ baseIds, t = name ++ b

/-- Every field says of the history what it is there for. -/
structure Reflects (history : List Entry) (s : SeenHistory) : Prop where
  seen : ∀ t, t ∈ s.seenIds ↔ ∃ ids, .submitted ids ∈ history ∧ t ∈ ids
  namespaces : ∀ name baseIds, s.compactSeenNamespaces.get? name = some baseIds ↔ .registered name baseIds ∈ history
  sets : ∀ name, s.compactSeenBaseIdSets.get? name = (s.compactSeenNamespaces.get? name).map List.toFinset
  lengths : ∀ n, n ∈ s.compactSeenPrefixLengths ↔ ∃ name ∈ s.compactSeenNamespaces.keys, name.length = n
  sorted : s.compactSeenSortedPrefixes.Pairwise (· < ·)
  names : ∀ name, name ∈ s.compactSeenSortedPrefixes ↔ name ∈ s.compactSeenNamespaces.keys
  texts : ∀ name baseIds, s.compactSeenNamespaces.get? name = some baseIds → "" ∉ baseIds
  cache : ∀ address baseIds baseIdSet, s.compactSeenBaseIdCache address = some (baseIds, baseIdSet) →
    "" ∉ baseIds ∧ baseIds.Nodup ∧ baseIdSet = baseIds.toFinset

theorem Reflects.init : Reflects [] .init where
  seen t := by simp [SeenHistory.init]
  namespaces name baseIds := by simp [SeenHistory.init]
  sets name := rfl
  lengths n := by simp [SeenHistory.init]
  sorted := List.Pairwise.nil
  names name := by simp [SeenHistory.init]
  texts name baseIds h := by simp [SeenHistory.init] at h
  cache address baseIds baseIdSet h := by simp [SeenHistory.init] at h

variable {history : List Entry} {s : SeenHistory}

/-! ## Membership -/

theorem Reflects.set_of_name (h : Reflects history s) {name : String} {baseIdSet : Finset String}
    (hget : s.compactSeenBaseIdSets.get? name = some baseIdSet) :
    ∃ baseIds, .registered name baseIds ∈ history ∧ baseIdSet = baseIds.toFinset := by
  rw [h.sets, Option.map_eq_some_iff] at hget
  obtain ⟨baseIds, hget, rfl⟩ := hget
  exact ⟨baseIds, (h.namespaces _ _).1 hget, rfl⟩

theorem Reflects.name_set (h : Reflects history s) {name : String} {baseIds : List String}
    (hmem : .registered name baseIds ∈ history) : s.compactSeenBaseIdSets.get? name = some baseIds.toFinset := by
  rw [h.sets, (h.namespaces _ _).2 hmem, Option.map_some]

theorem Reflects.name_length (h : Reflects history s) {name : String} {baseIds : List String}
    (hmem : .registered name baseIds ∈ history) : name.length ∈ s.compactSeenPrefixLengths :=
  (h.lengths _).2 ⟨name, Dict.mem_keys_of_get? ((h.namespaces _ _).2 hmem), rfl⟩

theorem shorterCollision_none (s : SeenHistory) (name : String) (baseIds : List String) : ∀ lengths,
    shorterCollision s name baseIds lengths = none ↔ ∀ n ∈ lengths, n < name.length →
      ∀ existing, s.compactSeenBaseIdSets.get? (textTake n name) = some existing →
        ∀ b ∈ baseIds, textDrop n name ++ b ∉ existing
  | [] => by simp [shorterCollision]
  | n :: lengths => by
    have ih := shorterCollision_none s name baseIds lengths
    rw [List.forall_mem_cons, shorterCollision]
    by_cases hn : name.length ≤ n
    · rw [if_pos hn, ih]
      exact ⟨fun h => ⟨fun hlt => absurd hlt (by omega), h⟩, fun h => h.2⟩
    · rw [if_neg hn]
      cases hget : s.compactSeenBaseIdSets.get? (textTake n name) with
      | none => simpa using ih
      | some existing =>
        cases hfind : baseIds.find? fun b => decide (textDrop n name ++ b ∈ existing) with
        | none =>
          have hno : ∀ b ∈ baseIds, textDrop n name ++ b ∉ existing := fun b hb =>
            of_decide_eq_false (Bool.eq_false_iff.2 (List.find?_eq_none.1 hfind b hb))
          simp only [hfind, ih, Option.some.injEq, forall_eq']
          exact ⟨fun h => ⟨fun _ => hno, h⟩, fun h => h.2⟩
        | some b =>
          have hb : textDrop n name ++ b ∈ existing := by simpa using List.find?_some hfind
          simp only [hfind, reduceCtorEq, false_iff, not_and]
          exact fun h => absurd hb (h (by omega) existing rfl b (List.mem_of_find?_eq_some hfind))

theorem longerCollision_none (s : SeenHistory) (name : String) (baseIdSet : Finset String) : ∀ names,
    longerCollision s name baseIdSet names = none ↔
      ∀ existing ∈ names.takeWhile (fun r => decide (Begins name r)),
        ∀ b ∈ (s.compactSeenNamespaces.get? existing).getD [], textDrop name.length existing ++ b ∉ baseIdSet
  | [] => by simp [longerCollision]
  | existing :: names => by
    have ih := longerCollision_none s name baseIdSet names
    rw [longerCollision]
    by_cases hbegins : Begins name existing
    · rw [if_neg (not_not.2 hbegins), List.takeWhile_cons_of_pos (by simpa using hbegins), List.forall_mem_cons]
      cases hfind : ((s.compactSeenNamespaces.get? existing).getD []).find?
          fun b => decide (textDrop name.length existing ++ b ∈ baseIdSet) with
      | none =>
        simp only [ih]
        refine ⟨fun h => ⟨fun b hb => ?_, h⟩, fun h => h.2⟩
        exact of_decide_eq_false (Bool.eq_false_iff.2 (List.find?_eq_none.1 hfind b hb))
      | some b =>
        have hb : textDrop name.length existing ++ b ∈ baseIdSet := by simpa using List.find?_some hfind
        simp only [reduceCtorEq, false_iff, not_and]
        exact fun h => absurd hb (h b (List.mem_of_find?_eq_some hfind))
    · rw [if_pos hbegins, List.takeWhile_cons_of_neg (by simpa using hbegins)]
      simp

/-- **A new name meets the old ones where a scan says so.** What the longer
of two names adds is in front of the base id of the shorter. -/
theorem Reflects.collision (h : Reflects history s) {name : String} (hnew : name ∉ s.compactSeenNamespaces.keys)
    (baseIds : List String) {lengths : List ℕ} (hlengths : lengths.toFinset = s.compactSeenPrefixLengths) :
    compactSeenCollision s name baseIds baseIds.toFinset lengths = none ↔
      ∀ existing ids, .registered existing ids ∈ history → ∀ c ∈ ids, ∀ b ∈ baseIds, name ++ b ≠ existing ++ c := by
  have hcut : compactSeenCollision s name baseIds baseIds.toFinset lengths = none ↔
      shorterCollision s name baseIds lengths = none ∧ longerCollision s name baseIds.toFinset
        (s.compactSeenSortedPrefixes.drop (bisectLeft (fun q => decide (q ≤ name)) s.compactSeenSortedPrefixes)) =
          none := by
    rw [compactSeenCollision]
    cases shorterCollision s name baseIds lengths <;> simp
  have hmem : ∀ n, n ∈ lengths ↔ n ∈ s.compactSeenPrefixLengths := fun n => by rw [← hlengths, List.mem_toFinset]
  rw [hcut, shorterCollision_none, longerCollision_none]
  constructor
  · rintro ⟨hshort, hlong⟩ existing ids hreg c hc b hb he
    rcases lt_or_ge existing.length name.length with hlt | hge
    · obtain ⟨u, rfl, rfl⟩ := append_split he hlt.le
      refine hshort _ ((hmem _).2 (h.name_length hreg)) hlt ids.toFinset ?_ b hb ?_
      · rw [textTake_append, h.name_set hreg]
      · rw [textDrop_append]
        exact List.mem_toFinset.2 hc
    · obtain ⟨u, rfl, rfl⟩ := append_split he.symm hge
      have hkey := Dict.mem_keys_of_get? ((h.namespaces _ _).2 hreg)
      refine hlong (name ++ u) ((mem_block h.sorted).2 ⟨(h.names _).2 hkey, begins_iff.2 ⟨u, rfl⟩, ?_⟩) c ?_ ?_
      · exact fun hn => hnew (by rwa [hn] at hkey)
      · rwa [(h.namespaces _ _).2 hreg, Option.getD_some]
      · rw [textDrop_append]
        exact List.mem_toFinset.2 hb
  · refine fun hno => ⟨fun n _ _ existing hget b hb hin => ?_, fun existing hin c hc hb => ?_⟩
    · obtain ⟨ids, hreg, rfl⟩ := h.set_of_name hget
      refine hno _ ids hreg _ (List.mem_toFinset.1 hin) b hb ?_
      rw [← String.append_assoc, textTake_drop]
    · obtain ⟨hname, hbegins, -⟩ := (mem_block h.sorted).1 hin
      obtain ⟨u, rfl⟩ := begins_iff.1 hbegins
      obtain ⟨ids, hget⟩ := Dict.mem_keys.1 ((h.names _).1 hname)
      rw [hget, Option.getD_some] at hc
      rw [textDrop_append, List.mem_toFinset] at hb
      exact hno _ ids ((h.namespaces _ _).1 hget) c hc _ hb (by rw [String.append_assoc])

/-! ## Registration -/

def BaseTaskIds.items? : BaseTaskIds → Option (List (Option String))
  | .text => none
  | .tuple _ items | .sequence _ items => some items

theorem checkBaseIds_ok : ∀ {items : List (Option String)} {seen baseIdSet : Finset String},
    checkBaseIds items seen = .ok baseIdSet ↔ ∃ ids : List String, items = ids.map some ∧ "" ∉ ids ∧ ids.Nodup ∧
      (∀ b ∈ ids, b ∉ seen) ∧ baseIdSet = seen ∪ ids.toFinset
  | [], seen, baseIdSet => by
    rw [checkBaseIds, Except.ok.injEq]
    constructor
    · rintro rfl
      exact ⟨[], by simp⟩
    · rintro ⟨ids, hids, -, -, -, rfl⟩
      obtain rfl := List.map_eq_nil_iff.1 hids.symm
      simp
  | none :: items, seen, baseIdSet => by
    refine ⟨fun h => (by cases h), fun ⟨ids, hids, _⟩ => ?_⟩
    cases ids with
    | nil => cases hids
    | cons b ids => cases hids
  | some b :: items, seen, baseIdSet => by
    have hcons : (∃ ids : List String, some b :: items = ids.map some ∧ "" ∉ ids ∧ ids.Nodup ∧
        (∀ c ∈ ids, c ∉ seen) ∧ baseIdSet = seen ∪ ids.toFinset) ↔
        b ≠ "" ∧ b ∉ seen ∧ ∃ ids : List String, items = ids.map some ∧ "" ∉ ids ∧ ids.Nodup ∧
          (∀ c ∈ ids, c ∉ insert b seen) ∧ baseIdSet = insert b seen ∪ ids.toFinset := by
      constructor
      · rintro ⟨_ | ⟨c, ids⟩, hids, hempty, hnodup, hseen, hset⟩
        · cases hids
        · obtain ⟨hb, rfl⟩ := List.cons.inj hids
          obtain rfl := Option.some.inj hb
          obtain ⟨hfresh, hnodup⟩ := List.nodup_cons.1 hnodup
          refine ⟨fun he => hempty (he ▸ List.mem_cons_self), hseen b List.mem_cons_self, ids, rfl,
            fun hm => hempty (List.mem_cons_of_mem _ hm), hnodup, fun c hc hin => ?_, ?_⟩
          · rcases Finset.mem_insert.1 hin with rfl | hin
            · exact hfresh hc
            · exact hseen c (List.mem_cons_of_mem _ hc) hin
          · rw [hset, List.toFinset_cons, Finset.union_insert, Finset.insert_union]
      · rintro ⟨hb, hnew, ids, rfl, hempty, hnodup, hseen, hset⟩
        refine ⟨b :: ids, rfl, ?_, ?_, ?_, ?_⟩
        · exact fun hm => (List.mem_cons.1 hm).elim (fun he => hb he.symm) hempty
        · exact List.nodup_cons.2 ⟨fun hm => hseen b hm (Finset.mem_insert_self _ _), hnodup⟩
        · exact List.forall_mem_cons.2 ⟨hnew, fun c hc hin => hseen c hc (Finset.mem_insert_of_mem hin)⟩
        · rw [hset, List.toFinset_cons, Finset.union_insert, Finset.insert_union]
    rw [hcons, checkBaseIds]
    by_cases hb : b = ""
    · rw [if_pos hb]
      exact ⟨fun h => (by cases h), fun h => absurd hb h.1⟩
    · by_cases hnew : b ∈ seen
      · rw [if_neg hb, if_pos hnew]
        exact ⟨fun h => (by cases h), fun h => absurd hnew h.2.1⟩
      · rw [if_neg hb, if_neg hnew, checkBaseIds_ok]
        exact ⟨fun h => ⟨hb, hnew, h⟩, fun h => h.2.2⟩

theorem validatedBaseIds_ok {address : ℕ} {items : List (Option String)} {out : ℕ × List String × Finset String} :
    validatedBaseIds address items = .ok out ↔ ∃ ids : List String, items = ids.map some ∧ "" ∉ ids ∧ ids.Nodup ∧
      out = (address, ids, ids.toFinset) := by
  have hids : ∀ ids : List String, (ids.map some).reduceOption = ids := fun ids => by
    rw [List.reduceOption, List.filterMap_map]
    exact List.filterMap_some
  rw [validatedBaseIds, bind_ok]
  constructor
  · rintro ⟨seen, hcheck, hout⟩
    obtain ⟨ids, rfl, hempty, hnodup, -, rfl⟩ := checkBaseIds_ok.1 hcheck
    rw [hids, Finset.empty_union] at hout
    exact ⟨ids, rfl, hempty, hnodup, (Except.ok.inj hout).symm⟩
  · rintro ⟨ids, rfl, hempty, hnodup, rfl⟩
    refine ⟨ids.toFinset, checkBaseIds_ok.2 ⟨ids, rfl, hempty, hnodup, fun _ _ => Finset.notMem_empty _, ?_⟩, ?_⟩
    · rw [Finset.empty_union]
    · rw [hids]
      rfl

/-- The cache answers as the loop does. -/
theorem Reflects.base_ids (h : Reflects history s) {arg : BaseTaskIds} {baseIds : List String}
    {baseIdSet : Finset String} : (∃ address, compactSeenBaseIds s arg = .ok (address, baseIds, baseIdSet)) ↔
      arg.items? = some (baseIds.map some) ∧ "" ∉ baseIds ∧ baseIds.Nodup ∧ baseIdSet = baseIds.toFinset := by
  have hloop : ∀ (at_ : ℕ) items, (∃ address, validatedBaseIds at_ items = .ok (address, baseIds, baseIdSet)) ↔
      some items = some (baseIds.map some) ∧ "" ∉ baseIds ∧ baseIds.Nodup ∧ baseIdSet = baseIds.toFinset := by
    intro at_ items
    constructor
    · rintro ⟨address, hok⟩
      obtain ⟨ids, rfl, hempty, hnodup, hout⟩ := validatedBaseIds_ok.1 hok
      obtain ⟨-, rfl, rfl⟩ := Prod.mk.inj hout |>.imp id Prod.mk.inj
      exact ⟨rfl, hempty, hnodup, rfl⟩
    · rintro ⟨hitems, hempty, hnodup, rfl⟩
      exact ⟨at_, validatedBaseIds_ok.2 ⟨baseIds, Option.some.inj hitems, hempty, hnodup, rfl⟩⟩
  cases arg with
  | text => exact ⟨fun ⟨_, hok⟩ => (by cases hok), fun hok => (by cases hok.1)⟩
  | sequence at_ items => exact hloop at_ items
  | tuple at_ items =>
    rw [compactSeenBaseIds]
    cases hcache : s.compactSeenBaseIdCache at_ with
    | none => exact hloop at_ items
    | some cached =>
      obtain ⟨ids, idSet⟩ := cached
      obtain ⟨hempty, hnodup, rfl⟩ := h.cache _ _ _ hcache
      by_cases hsame : ids.map some = items
      · subst hsame
        simp only [if_pos]
        constructor
        · rintro ⟨address, hok⟩
          obtain ⟨-, hok⟩ := Prod.mk.inj (Except.ok.inj hok)
          obtain ⟨rfl, rfl⟩ := Prod.mk.inj hok
          exact ⟨rfl, hempty, hnodup, rfl⟩
        · rintro ⟨hitems, -, -, rfl⟩
          obtain rfl := (List.map_injective_iff.2 (Option.some_injective String)) (Option.some.inj hitems)
          exact ⟨at_, rfl⟩
      · simp only [if_neg hsame]
        exact hloop at_ items

/-- The two searches for a task id seen before leave none. -/
theorem Reflects.fresh (h : Reflects history s) {name : String} (hnew : name ∉ s.compactSeenNamespaces.keys)
    (baseIds : List String) {order : List String} {lengths : List ℕ} (horder : order.toFinset = s.seenIds)
    (hlengths : lengths.toFinset = s.compactSeenPrefixLengths) :
    ((order.find? fun t => decide (Begins name t ∧ textDrop name.length t ∈ baseIds.toFinset)) = none ∧
      compactSeenCollision s name baseIds baseIds.toFinset lengths = none) ↔
        ∀ b ∈ baseIds, ¬Expanded history (name ++ b) := by
  have hmem : ∀ t, t ∈ order ↔ ∃ ids, .submitted ids ∈ history ∧ t ∈ ids := fun t => by
    rw [← List.mem_toFinset, horder, h.seen]
  rw [h.collision hnew baseIds hlengths, List.find?_eq_none]
  constructor
  · rintro ⟨hexplicit, hcompact⟩ b hb (hsub | ⟨existing, ids, hreg, c, hc, he⟩)
    · refine hexplicit _ ((hmem _).2 hsub) (decide_eq_true ⟨begins_iff.2 ⟨b, rfl⟩, ?_⟩)
      rwa [textDrop_append, List.mem_toFinset]
    · exact hcompact existing ids hreg c hc b hb he
  · refine fun hno => ⟨fun t ht hd => ?_, fun existing ids hreg c hc b hb he => ?_⟩
    · obtain ⟨hbegins, hb⟩ := of_decide_eq_true hd
      obtain ⟨u, rfl⟩ := begins_iff.1 hbegins
      rw [textDrop_append, List.mem_toFinset] at hb
      exact hno u hb (.inl ((hmem _).1 ht))
    · exact hno b hb (.inr ⟨existing, ids, hreg, c, hc, he⟩)

theorem Reflects.new_iff (h : Reflects history s) {name : String} :
    name ∉ s.compactSeenNamespaces.keys ↔ ∀ ids, .registered name ids ∉ history := by
  rw [Dict.mem_keys, not_exists]
  exact forall_congr' fun ids => not_congr (h.namespaces name ids)

/-- What is prepared has passed every check, and what passes them is
prepared. -/
theorem Reflects.prepare (h : Reflects history s) {name : Option String} {arg : BaseTaskIds} {order : List String}
    {lengths : List ℕ} (horder : order.toFinset = s.seenIds) (hlengths : lengths.toFinset = s.compactSeenPrefixLengths)
    {n : String} {baseIds : List String} {baseIdSet : Finset String} :
    (∃ address, prepareCompactSeenNamespace s name arg order lengths = .ok (n, address, baseIds, baseIdSet)) ↔
      name = some n ∧ n ≠ "" ∧ (∀ ids, .registered n ids ∉ history) ∧ arg.items? = some (baseIds.map some) ∧
        "" ∉ baseIds ∧ baseIds.Nodup ∧ baseIdSet = baseIds.toFinset ∧ ∀ b ∈ baseIds, ¬Expanded history (n ++ b) := by
  cases name with
  | none => exact ⟨fun ⟨_, hok⟩ => (by cases hok), fun hok => (by cases hok.1)⟩
  | some m =>
    constructor
    · rintro ⟨address, hok⟩
      obtain ⟨_, hne, hok⟩ := bind_ok.1 hok
      obtain ⟨_, hnew, hok⟩ := bind_ok.1 hok
      obtain ⟨⟨at_, ids, idSet⟩, hbase, hok⟩ := bind_ok.1 hok
      obtain ⟨hitems, hempty, hnodup, rfl⟩ := h.base_ids.1 ⟨at_, hbase⟩
      rw [refuse_ok] at hne hnew
      have hfresh := h.fresh hnew ids horder hlengths
      cases hfind : order.find? fun t => decide (Begins m t ∧ textDrop m.length t ∈ ids.toFinset) with
      | some t => simp only [hfind] at hok; cases hok
      | none =>
        cases hcol : compactSeenCollision s m ids ids.toFinset lengths with
        | some t => simp only [hfind, hcol] at hok; cases hok
        | none =>
          simp only [hfind, hcol] at hok
          cases hok
          exact ⟨rfl, hne, h.new_iff.1 hnew, hitems, hempty, hnodup, rfl, hfresh.1 ⟨hfind, hcol⟩⟩
    · rintro ⟨hname, hne, hnew, hitems, hempty, hnodup, rfl, hfresh⟩
      obtain rfl := Option.some.inj hname
      obtain ⟨address, hbase⟩ := h.base_ids.2 ⟨hitems, hempty, hnodup, rfl⟩
      obtain ⟨hfind, hcol⟩ := (h.fresh (h.new_iff.2 hnew) baseIds horder hlengths).2 hfresh
      refine ⟨address, bind_ok.2 ⟨(), refuse_ok.2 hne, bind_ok.2 ⟨(), refuse_ok.2 (h.new_iff.2 hnew),
        bind_ok.2 ⟨_, hbase, ?_⟩⟩⟩⟩
      simp only [hfind, hcol]
      rfl

end HeteroSim.Kernel
