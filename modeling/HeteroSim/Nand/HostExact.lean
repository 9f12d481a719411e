/-
Host admission is exact: the heaps hold the ends of the commands that were
recorded and not retired, looking ahead finds the least time with room for the
newcomer and leaves no trace, and the clocks of a core never go back to before
a retirement.
-/
import HeteroSim.Nand.Host
import HeteroSim.Transitions

namespace HeteroSim.Nand

open HeteroSim.Task (Operation)

/-! ## Counts -/

/-- How many commands of the kind end after `t`. -/
def busy (kind : Operation → Bool) (t : ℚ) (commands : List (ℚ × Operation)) : ℤ :=
  commands.countP fun command => decide (t < command.1) && kind command.2

def anyKind : Operation → Bool := fun _ => true

def only (operation : Operation) : Operation → Bool := fun other => decide (other = operation)

variable {kind : Operation → Bool} {t u : ℚ} {kept : List (ℚ × Operation)}

theorem busy_nonneg : 0 ≤ busy kind t kept := Int.natCast_nonneg _

/-- The count stays while nothing of the kind ends. -/
theorem busy_between (htu : t ≤ u) (h : ∀ command ∈ kept, kind command.2 = true → t < command.1 → u < command.1) :
    busy kind u kept = busy kind t kept := by
  unfold busy
  congr 1
  refine List.countP_congr fun command hc => ?_
  simp only [Bool.and_eq_true, decide_eq_true_eq]
  constructor
  · intro ⟨hu, hk⟩
    exact ⟨htu.trans_lt hu, hk⟩
  · intro ⟨ht, hk⟩
    exact ⟨h command hc hk ht, hk⟩

/-- The count falls when one of the kind ends. -/
theorem busy_lt {command : ℚ × Operation} (hcommand : command ∈ kept) (hkind : kind command.2 = true) (ht : t < command.1)
    (hu : command.1 ≤ u) : busy kind u kept < busy kind t kept := by
  have hsub : (kept.filter fun command => decide (u < command.1) && kind command.2) =
      (kept.filter fun command => decide (t < command.1) && kind command.2).filter fun command => decide (u < command.1) := by
    rw [List.filter_filter]
    refine List.filter_congr fun other _ => ?_
    by_cases hlater : u < other.1
    · simp [hlater, (ht.trans_le hu).trans hlater]
    · simp [hlater]
  rw [busy, busy, List.countP_eq_length_filter, List.countP_eq_length_filter, hsub]
  refine Int.ofNat_lt.2 (List.length_filter_lt_length_iff_exists.2 ⟨command, ?_, by simpa using hu⟩)
  exact List.mem_filter.2 ⟨hcommand, by simp [ht, hkind]⟩

/-- At `t` there is room for the newcomer. -/
def Free (limit writeLimit : Option ℤ) (kept : List (ℚ × Operation)) (t : ℚ) : Prop :=
  (∀ most ∈ limit, busy anyKind t kept < most) ∧ ∀ most ∈ writeLimit, busy (only .write) t kept < most

/-! ## The heaps of a population -/

namespace HostPopulation

/-- The heap of all ends, and the counts, are those of the commands. -/
structure Indexed (p : HostPopulation) : Prop where
  heap : IsHeap p.ends
  ends : p.ends.Perm (p.commands.items.map endOf)
  reads : p.reads = p.commands.values.countP fun command => only .read command.2
  writes : p.writes = p.commands.values.countP fun command => only .write command.2
  below : ∀ index ∈ p.commands.keys, index < p.nextId

/-- The population is of these commands. -/
structure Tracks (p : HostPopulation) (kept : List (ℚ × Operation)) : Prop where
  indexed : p.Indexed
  values : p.commands.values = kept
  writeHeap : IsHeap p.writeEnds
  writeEnds : p.writeEnds.Perm ((p.commands.items.filter fun item => only .write item.2.2).map endOf)

variable {p : HostPopulation}

/-- An end on the heap is that of a command. -/
theorem Indexed.found (h : p.Indexed) {item : ℚ ×ₗ ℕ} (hi : item ∈ p.ends) :
    ∃ operation, p.commands.get? (commandOf item) = some (endsAt item, operation) := by
  obtain ⟨⟨index, stop, operation⟩, hmem, rfl⟩ := List.mem_map.1 (h.ends.mem_iff.1 hi)
  exact ⟨operation, Dict.get?_eq_some.2 hmem⟩

theorem commandAt_ok {commands : Dict ℕ (ℚ × Operation)} {index : ℕ} {command : ℚ × Operation}
    (h : commands.get? index = some command) : commandAt commands index = .ok command := by
  rw [commandAt, h]

theorem tracks_ofCommands (commands : List (ℚ × Operation)) : (ofCommands commands).Tracks commands := by
  have hfst : ((commands.zipIdx.map Prod.swap).map Prod.fst) = List.range commands.length := by
    rw [List.map_map]
    exact (List.zipIdx_map_snd 0 commands).trans List.range_eq_range'.symm
  have hitems : (Dict.collect (commands.zipIdx.map Prod.swap)).items = commands.zipIdx.map Prod.swap :=
    Dict.items_collect (hfst ▸ List.nodup_range)
  have hkeys : (ofCommands commands).commands.keys = List.range commands.length := by
    rw [Dict.keys, ofCommands, hitems, hfst]
  have hvalues : (ofCommands commands).commands.values = commands := by
    rw [Dict.values, ofCommands, hitems, List.map_map]
    exact List.zipIdx_map_fst 0 commands
  have hwrites : ∀ items : List (ℕ × ℚ × Operation),
      (((items.filter fun item => item.2.2 = .write).map endOf).length : ℤ) =
        (items.map Prod.snd).countP fun command => only .write command.2 := by
    intro items
    rw [List.length_map, ← List.countP_eq_length_filter, List.countP_map]
    rfl
  refine ⟨⟨isHeap_heapify _, heapify_perm _, rfl, hwrites _, fun index hindex => ?_⟩, hvalues, isHeap_heapify _, heapify_perm _⟩
  rw [hkeys, List.mem_range] at hindex
  have hnext : (ofCommands commands).nextId = commands.length := by
    show (Dict.collect _).items.length = _
    rw [hitems, List.length_map, List.length_zipIdx]
  omega

/-! ## Recording -/

theorem endsAt_mono {effective : ℚ} (x y : ℚ ×ₗ ℕ) (hxy : x ≤ y) (hy : decide (endsAt y ≤ effective) = true) :
    decide (endsAt x ≤ effective) = true := by
  have hle : endsAt x ≤ endsAt y := Prod.Lex.monotone_fst x y hxy
  exact decide_eq_true (hle.trans (of_decide_eq_true hy))

/-- What the second heap is popped of. -/
theorem dropWhile_ended {heap : List (ℚ ×ₗ ℕ)} (h : IsHeap heap) (effective : ℚ) :
    (heap.dropWhile fun item => decide (endsAt item ≤ effective)) = heap.filter fun item => decide (effective < endsAt item) := by
  rw [h.dropWhile endsAt_mono]
  refine List.filter_congr fun item _ => ?_
  rw [← decide_not]
  exact decide_eq_decide.2 not_le

/-- **Retiring pops exactly what has ended.** -/
theorem retireEnds_ok {effective : ℚ} {ends : List (ℚ ×ₗ ℕ)} : ∀ {p : HostPopulation}, p.ends = ends → p.Indexed →
    ∃ p', retireEnds effective ends p = .ok () p' ∧ p'.Indexed ∧ p'.nextId = p.nextId ∧ p'.writeEnds = p.writeEnds ∧
      p'.commands.items = p.commands.items.filter fun item => decide (effective < item.2.1) := by
  induction ends with
  | nil =>
    intro p hends h
    refine ⟨p, rfl, h, rfl, rfl, ?_⟩
    have hnone := h.ends
    rw [hends, List.nil_perm, List.map_eq_nil_iff] at hnone
    rw [hnone]
    rfl
  | cons item ends ih =>
    intro p hends h
    rw [retireEnds]
    by_cases hended : endsAt item ≤ effective
    · rw [if_pos hended]
      obtain ⟨operation, hget⟩ := h.found (hends ▸ List.mem_cons_self)
      obtain ⟨pre, post, hitems, hpre, hpost⟩ := Dict.split hget
      have herased := Dict.items_erase_split hitems hpre hpost
      -- the population without the command
      have hcount : ∀ k : Operation → Bool, ((pre ++ post).map Prod.snd).countP (fun command => k command.2) =
          ((p.commands.items.map Prod.snd).countP fun command => k command.2) - (if k operation = true then 1 else 0 : ℤ) := by
        intro k
        rw [hitems]
        by_cases hk : k operation = true
        · simp [hk]
          omega
        · simp [hk]
      have hperm : ends.Perm ((pre ++ post).map endOf) := by
        have hall := h.ends
        have hitem : endOf (commandOf item, endsAt item, operation) = item := rfl
        rw [hends, hitems, List.map_append, List.map_cons, hitem] at hall
        rw [List.map_append]
        exact (hall.trans List.perm_middle).cons_inv
      let next : HostPopulation :=
        { p with
          commands := p.commands.erase (commandOf item)
          ends := ends
          reads := p.reads - if operation = .read then 1 else 0
          writes := p.writes - if operation = .write then 1 else 0 }
      have hnext : next.Indexed := by
        refine ⟨(hends ▸ h.heap).tail, ?_, ?_, ?_, fun index hindex => ?_⟩
        · show ends.Perm ((p.commands.erase (commandOf item)).items.map endOf)
          rw [herased]
          exact hperm
        · show p.reads - _ = (((p.commands.erase (commandOf item)).items.map Prod.snd).countP _ : ℤ)
          rw [herased, hcount, h.reads, Dict.values]
          simp [only]
        · show p.writes - _ = (((p.commands.erase (commandOf item)).items.map Prod.snd).countP _ : ℤ)
          rw [herased, hcount, h.writes, Dict.values]
          simp [only]
        · exact h.below index (Dict.mem_keys_erase.1 hindex).1
      obtain ⟨p', hok, hindexed, hid, hwrite, hleft⟩ := ih (p := next) rfl hnext
      refine ⟨p', ?_, hindexed, hid, hwrite, ?_⟩
      · rw [modify_then, get_then, ok_bind (raise_ok (commandAt_ok hget)), modify_then]
        exact hok
      · rw [hleft]
        show ((p.commands.erase (commandOf item)).items.filter _) = _
        rw [herased, hitems, List.filter_append, List.filter_append, List.filter_cons_of_neg]
        simpa using hended
    · rw [if_neg hended]
      refine ⟨p, rfl, h, rfl, rfl, (List.filter_eq_self.2 fun entry hmem => decide_eq_true ?_).symm⟩
      obtain ⟨index, stop, operation⟩ := entry
      -- the first end is the least
      have hin : endOf (index, stop, operation) ∈ item :: ends := by
        rw [← hends, h.ends.mem_iff]
        exact List.mem_map_of_mem hmem
      have hle : endsAt item ≤ stop := Prod.Lex.monotone_fst _ _ (IsHeap.head_le (hends ▸ h.heap) hin)
      exact (not_le.1 hended).trans_le hle

/-- **A record retires what has ended and adds the command.** -/
theorem Tracks.record (h : p.Tracks kept) (effective completion : ℚ) (operation : Operation) :
    ∃ p', p.record effective completion operation = .ok () p' ∧
      p'.Tracks ((kept.filter fun command => decide (effective < command.1)) ++ [(completion, operation)]) := by
  obtain ⟨q, hok, hindexed, -, hwrite, hleft⟩ := @retireEnds_ok effective p.ends p rfl h.indexed
  have hfresh : q.nextId ∉ q.commands.keys := fun hmem => absurd (hindexed.below _ hmem) (lt_irrefl _)
  have hitems : (q.commands.insert q.nextId (completion, operation)).items =
      q.commands.items ++ [(q.nextId, completion, operation)] := Dict.items_insert_of_not_mem hfresh
  have hvalues : (q.commands.insert q.nextId (completion, operation)).values =
      (kept.filter fun command => decide (effective < command.1)) ++ [(completion, operation)] := by
    rw [Dict.values, hitems, List.map_append, hleft, ← h.values, Dict.values, List.filter_map]
    rfl
  have hwrites : (q.writeEnds.dropWhile fun item => decide (endsAt item ≤ effective)).Perm
      ((q.commands.items.filter fun item => only .write item.2.2).map endOf) := by
    rw [hwrite, dropWhile_ended h.writeHeap, hleft]
    refine (h.writeEnds.filter _).trans ?_
    rw [List.filter_map, List.filter_comm]
    exact .refl _
  refine ⟨add completion operation { q with writeEnds := q.writeEnds.dropWhile fun item => decide (endsAt item ≤ effective) },
    ?_, ⟨hindexed.heap.push _, ?_, ?_, ?_, fun index hindex => ?_⟩, hvalues, ?_, ?_⟩
  · rw [HostPopulation.record, get_then, ok_bind hok]
    rfl
  · show (heappush q.ends _).Perm ((q.commands.insert q.nextId (completion, operation)).items.map endOf)
    rw [hitems, List.map_append]
    exact ((heappush_perm _ _).trans (hindexed.ends.cons _)).trans (List.perm_append_singleton _ _).symm
  · show q.reads + _ = (((q.commands.insert q.nextId (completion, operation)).items.map Prod.snd).countP _ : ℤ)
    rw [hitems, List.map_append, List.countP_append, hindexed.reads, Dict.values]
    simp [only, List.countP_cons]
  · show q.writes + _ = (((q.commands.insert q.nextId (completion, operation)).items.map Prod.snd).countP _ : ℤ)
    rw [hitems, List.map_append, List.countP_append, hindexed.writes, Dict.values]
    simp [only, List.countP_cons]
  · rcases Dict.mem_keys_insert.1 hindex with rfl | hmem
    · exact Nat.lt_succ_self _
    · exact Nat.lt_succ_of_lt (hindexed.below index hmem)
  · have hheap : IsHeap (q.writeEnds.dropWhile fun item => decide (endsAt item ≤ effective)) :=
      List.Pairwise.sublist (List.dropWhile_sublist _) (hwrite ▸ h.writeHeap)
    show IsHeap (if operation = .write then heappush _ _ else _)
    split
    · exact hheap.push _
    · exact hheap
  · show (if operation = .write then heappush _ _ else _ : List (ℚ ×ₗ ℕ)).Perm
      (((q.commands.insert q.nextId (completion, operation)).items.filter _).map endOf)
    rw [hitems, List.filter_append, List.map_append]
    split
    · next hw =>
      subst hw
      exact ((heappush_perm _ _).trans (hwrites.cons _)).trans (List.perm_append_singleton _ _).symm
    · next hw =>
      have hnone : [(q.nextId, completion, operation)].filter (fun item => only .write item.2.2) = [] := by
        simp [only, hw]
      rw [hnone, List.map_nil, List.append_nil]
      exact hwrites

end HostPopulation

/-! ## Looking ahead -/

namespace Preview

/-- Whether the command of an entry is of the kind. -/
def kindAt (p : HostPopulation) (kind : Operation → Bool) (item : ℚ ×ₗ ℕ) : Bool :=
  (p.commands.get? (commandOf item)).any fun command => kind command.2

/-- `p` as it is looked at: what was popped has ended by now, and the counts
are of what is left. -/
structure Seen (p : HostPopulation) (w : Preview) : Prop where
  commands : w.population.commands = p.commands
  counts : w.population.nextId = p.nextId ∧ w.population.reads = p.reads ∧ w.population.writes = p.writes
  heap : IsHeap w.population.ends
  writeHeap : IsHeap w.population.writeEnds
  ends : (w.expired ++ w.population.ends).Perm p.ends
  writeEnds : (w.expiredWrites ++ w.population.writeEnds).Perm p.writeEnds
  gone : ∀ item ∈ w.expired, endsAt item ≤ w.effective
  goneWrites : ∀ item ∈ w.expiredWrites, endsAt item ≤ w.effective
  count : w.count = w.population.ends.length
  reads : w.reads = w.population.ends.countP (kindAt p (only .read))
  writes : w.writes = w.population.ends.countP (kindAt p (only .write))

variable {p : HostPopulation} {w : Preview}

/-- **What is popped goes back.** -/
theorem Seen.restored (h : Seen p w) (hp : p.Tracks kept) : w.restored = p := by
  have hends : w.expired.foldl heappush w.population.ends = p.ends :=
    (h.heap.pushAll _).ext hp.indexed.heap ((foldl_heappush_perm _ _).trans h.ends)
  have hwrites : w.expiredWrites.foldl heappush w.population.writeEnds = p.writeEnds :=
    (h.writeHeap.pushAll _).ext hp.writeHeap ((foldl_heappush_perm _ _).trans h.writeEnds)
  obtain ⟨hid, hreads, hwritten⟩ := h.counts
  rw [Preview.restored, hends, hwrites, h.commands, hid, hreads, hwritten]

/-- The first loop pops what has ended. -/
theorem popEnds_ok (hp : p.Indexed) {ends : List (ℚ ×ₗ ℕ)} : ∀ {w : Preview}, w.population.ends = ends → Seen p w →
    ∃ w', popEnds ends w = .ok () w' ∧ Seen p w' ∧ w'.effective = w.effective ∧
      ∀ item ∈ w'.population.ends, w.effective < endsAt item := by
  induction ends with
  | nil =>
    intro w hends h
    refine ⟨w, rfl, h, rfl, fun item hitem => ?_⟩
    rw [hends] at hitem
    cases hitem
  | cons item ends ih =>
    intro w hends h
    rw [popEnds, get_then]
    by_cases hended : endsAt item ≤ w.effective
    · rw [if_pos hended]
      have hin : item ∈ p.ends := h.ends.mem_iff.1 (List.mem_append_right _ (hends ▸ List.mem_cons_self))
      obtain ⟨operation, hget⟩ := hp.found hin
      have hkind : ∀ kind, (w.population.ends.countP (kindAt p kind) : ℤ) =
          ends.countP (kindAt p kind) + if kind operation = true then 1 else 0 := by
        intro kind
        have hitem : kindAt p kind item = kind operation := by
          rw [kindAt, hget]
          rfl
        rw [hends, List.countP_cons, hitem]
        push_cast
        rfl
      let next : Preview :=
        { w with
          population.ends := ends
          expired := w.expired ++ [item]
          reads := w.reads - if operation = .read then 1 else 0
          writes := w.writes - if operation = .write then 1 else 0
          count := w.count - 1 }
      have hnext : Seen p next := by
        refine ⟨h.commands, h.counts, (hends ▸ h.heap).tail, h.writeHeap, ?_, h.writeEnds, fun other hother => ?_, h.goneWrites, ?_, ?_, ?_⟩
        · show (w.expired ++ [item] ++ ends).Perm p.ends
          have hall := h.ends
          rw [hends] at hall
          rw [List.append_assoc]
          exact hall
        · rcases List.mem_append.1 hother with hother | hother
          · exact h.gone other hother
          · rw [List.mem_singleton.1 hother]
            exact hended
        · show w.count - 1 = ends.length
          rw [h.count, hends, List.length_cons]
          push_cast
          ring
        · show w.reads - _ = _
          rw [h.reads, hkind]
          simp [only, next]
        · show w.writes - _ = _
          rw [h.writes, hkind]
          simp [only, next]
      have hcommand : commandAt w.population.commands (commandOf item) = .ok (endsAt item, operation) := by
        rw [h.commands]
        exact HostPopulation.commandAt_ok hget
      obtain ⟨w', hok, hseen, heff, hleft⟩ := ih (w := next) rfl hnext
      refine ⟨w', ?_, hseen, heff, hleft⟩
      rw [set_then, ok_bind (raise_ok hcommand), modify_then]
      exact hok
    · rw [if_neg hended]
      refine ⟨w, rfl, h, rfl, fun other hother => ?_⟩
      have hle : endsAt item ≤ endsAt other :=
        Prod.Lex.monotone_fst _ _ (IsHeap.head_le (hends ▸ h.heap) (hends ▸ hother))
      exact (not_le.1 hended).trans_le hle

/-- The second pops what writes have ended. -/
theorem Seen.popWriteEnds (h : Seen p w) : Seen p (popWriteEnds w) ∧
    ∀ item ∈ (Nand.popWriteEnds w).population.writeEnds, w.effective < endsAt item := by
  have hsub : ((Nand.popWriteEnds w).population.writeEnds).Sublist w.population.writeEnds := List.dropWhile_sublist _
  refine ⟨⟨h.commands, h.counts, h.heap, h.writeHeap.sublist hsub, h.ends, ?_, h.gone, fun item hitem => ?_, h.count,
    h.reads, h.writes⟩, fun item hitem => ?_⟩
  · simp only [Nand.popWriteEnds]
    rw [List.append_assoc, List.takeWhile_append_dropWhile]
    exact h.writeEnds
  · rcases List.mem_append.1 hitem with hitem | hitem
    · exact h.goneWrites item hitem
    · have hended := List.mem_takeWhile_imp hitem
      exact of_decide_eq_true hended
  · have hdrop : (Nand.popWriteEnds w).population.writeEnds =
        w.population.writeEnds.filter fun item => decide (w.effective < endsAt item) :=
      HostPopulation.dropWhile_ended h.writeHeap w.effective
    rw [hdrop, List.mem_filter] at hitem
    exact of_decide_eq_true hitem.2

/-- A heap of the ends after `t` of the commands of a kind. -/
structure Upcoming (kind : Operation → Bool) (t : ℚ) (kept : List (ℚ × Operation)) (heap : List (ℚ ×ₗ ℕ)) : Prop where
  sorted : IsHeap heap
  ends : (heap.map endsAt).Perm ((kept.filter fun command => decide (t < command.1) && kind command.2).map Prod.fst)

variable {heap : List (ℚ ×ₗ ℕ)}

theorem Upcoming.length (h : Upcoming kind t kept heap) : (heap.length : ℤ) = busy kind t kept := by
  have hlength := h.ends.length_eq
  rw [List.length_map, List.length_map, ← List.countP_eq_length_filter] at hlength
  rw [hlength, busy]

/-- **What a limit waits for**: until its end, the count stays at the limit. -/
theorem blockedBy_cases (h : Upcoming kind t kept heap) {count : ℤ} (hcount : count = busy kind t kept) (limit : Option ℤ) :
    (blockedBy limit count heap = .error .indexError ∧ ∃ most ∈ limit, most ≤ 0) ∨
    ∃ blocked, blockedBy limit count heap = .ok blocked ∧
      (blocked = [] → ∀ most ∈ limit, busy kind t kept < most) ∧
      ∀ stop ∈ blocked, t < stop ∧ (∃ command ∈ kept, command.1 = stop) ∧
        ∃ most ∈ limit, ∀ u, t ≤ u → u < stop → most ≤ busy kind u kept := by
  subst hcount
  cases limit with
  | none => exact .inr ⟨[], rfl, fun _ most hmost => (by cases hmost), fun stop hstop => (by cases hstop)⟩
  | some most =>
    by_cases hfull : most ≤ busy kind t kept
    · cases heap with
      | nil =>
        have hzero : busy kind t kept = 0 := h.length.symm
        exact .inl ⟨if_pos hfull, most, rfl, hfull.trans hzero.le⟩
      | cons item heap =>
        refine .inr ⟨[endsAt item], if_pos hfull, fun hnil => (by cases hnil), fun stop hstop => ?_⟩
        rw [List.mem_singleton.1 hstop]
        have hin : endsAt item ∈ (item :: heap).map endsAt := List.mem_cons_self
        obtain ⟨command, hcommand, hstop⟩ := List.mem_map.1 (h.ends.mem_iff.1 hin)
        obtain ⟨hkept, hafter⟩ := List.mem_filter.1 hcommand
        rw [Bool.and_eq_true, decide_eq_true_eq, hstop] at hafter
        refine ⟨hafter.1, ⟨command, hkept, hstop⟩, most, rfl, fun u hu hbefore => ?_⟩
        have hsame : busy kind u kept = busy kind t kept := by
          refine busy_between hu fun other hother hkind hlater => ?_
          -- no end of the kind comes before the first
          have hlisted : other.1 ∈ (item :: heap).map endsAt := by
            rw [h.ends.mem_iff]
            exact List.mem_map_of_mem (List.mem_filter.2 ⟨hother, by simp [hlater, hkind]⟩)
          obtain ⟨entry, hentry, heq⟩ := List.mem_map.1 hlisted
          have hle : endsAt item ≤ endsAt entry := Prod.Lex.monotone_fst _ _ (h.sorted.head_le hentry)
          exact hbefore.trans_le (heq ▸ hle)
        rw [hsame]
        exact hfull
    · refine .inr ⟨[], ?_, fun _ other hother => ?_, fun stop hstop => (by cases hstop)⟩
      · cases heap with
        | nil => exact if_neg hfull
        | cons item heap => exact if_neg hfull
      · rw [← Option.some.inj hother]
        exact not_le.1 hfull

/-- What is left of a heap after a pop of what has ended. -/
theorem left_perm {popped left all : List (ℚ ×ₗ ℕ)} (h : (popped ++ left).Perm all) (hpopped : ∀ item ∈ popped, endsAt item ≤ t)
    (hleft : ∀ item ∈ left, t < endsAt item) : left.Perm (all.filter fun item => decide (t < endsAt item)) := by
  have hfilter := h.filter fun item => decide (t < endsAt item)
  have hnone : popped.filter (fun item => decide (t < endsAt item)) = [] :=
    List.filter_eq_nil_iff.2 fun item hitem => by simpa using hpopped item hitem
  have hall : left.filter (fun item => decide (t < endsAt item)) = left :=
    List.filter_eq_self.2 fun item hitem => decide_eq_true (hleft item hitem)
  rw [List.filter_append, hnone, List.nil_append, hall] at hfilter
  exact hfilter

/-- Both heaps popped. -/
structure Looked (p : HostPopulation) (w : Preview) : Prop extends Seen p w where
  later : ∀ item ∈ w.population.ends, w.effective < endsAt item
  laterWrites : ∀ item ∈ w.population.writeEnds, w.effective < endsAt item

theorem Looked.upcoming (h : Looked p w) (hp : p.Tracks kept) : Upcoming anyKind w.effective kept w.population.ends := by
  refine ⟨h.heap, ?_⟩
  refine ((left_perm h.ends h.gone h.later).map endsAt).trans ?_
  refine ((hp.indexed.ends.filter _).map endsAt).trans ?_
  rw [← hp.values, Dict.values, List.filter_map, List.filter_map, List.map_map, List.map_map]
  exact .of_eq (congrArg _ (List.filter_congr fun item _ => (Bool.and_true _).symm))

theorem Looked.upcomingWrites (h : Looked p w) (hp : p.Tracks kept) :
    Upcoming (only .write) w.effective kept w.population.writeEnds := by
  refine ⟨h.writeHeap, ?_⟩
  refine ((left_perm h.writeEnds h.goneWrites h.laterWrites).map endsAt).trans ?_
  refine ((hp.writeEnds.filter _).map endsAt).trans ?_
  rw [← hp.values, Dict.values, List.filter_map, List.filter_map, List.map_map, List.map_map, List.filter_filter]
  exact .of_eq (congrArg _ (List.filter_congr fun item _ => rfl))

/-- The entries left of a kind are the commands of the kind still to end. -/
theorem Looked.ofKind (h : Looked p w) (hp : p.Tracks kept) (kind : Operation → Bool) :
    (w.population.ends.countP (kindAt p kind) : ℤ) = busy kind w.effective kept := by
  have hleft := left_perm h.ends h.gone h.later
  rw [hleft.countP_eq, List.countP_filter, hp.indexed.ends.countP_eq, List.countP_map, busy, ← hp.values, Dict.values,
    List.countP_map]
  congr 1
  refine List.countP_congr fun entry hitem => ?_
  obtain ⟨index, stop, operation⟩ := entry
  have hget : p.commands.get? (commandOf (endOf (index, stop, operation))) = some (stop, operation) := Dict.get?_eq_some.2 hitem
  simp only [Function.comp_apply, kindAt, hget, Option.any_some, Bool.and_comm]
  rfl

/-- The counts of an admission are those at its time. -/
def Counts (a : HostAdmission) (kept : List (ℚ × Operation)) : Prop :=
  a.count = busy anyKind a.effective kept ∧ a.reads = busy (only .read) a.effective kept ∧
    a.writes = busy (only .write) a.effective kept

variable {limit writeLimit : Option ℤ} {start : ℚ}

theorem foldl_max_mem : ∀ (first : ℚ) (rest : List ℚ), rest.foldl max first ∈ first :: rest
  | _, [] => List.mem_cons_self
  | first, second :: rest => by
    have h := foldl_max_mem (max first second) rest
    rw [List.foldl_cons]
    rcases List.mem_cons.1 h with h | h
    · rcases max_choice first second with hm | hm
      · rw [h, hm]
        exact List.mem_cons_self
      · rw [h, hm]
        exact List.mem_cons_of_mem _ List.mem_cons_self
    · exact List.mem_cons_of_mem _ (List.mem_cons_of_mem _ h)

/-- **The loop finds the least time with room**, or a limit that leaves none. -/
theorem previewLoop_spec (limit writeLimit : Option ℤ) (hp : p.Tracks kept) : ∀ {passes : ℕ} {w : Preview}, Seen p w → start ≤ w.effective →
    (∀ t, start ≤ t → t < w.effective → ¬Free limit writeLimit kept t) → busy anyKind w.effective kept < passes →
    (∃ a w', previewLoop limit writeLimit passes w = .ok a w' ∧ Seen p w' ∧ Counts a kept ∧
      IsLeast {t | start ≤ t ∧ Free limit writeLimit kept t} a.effective) ∨
    ∃ w', previewLoop limit writeLimit passes w = .error .indexError w' ∧ Seen p w' ∧
      ∃ most, (most ∈ limit ∨ most ∈ writeLimit) ∧ most ≤ 0 := by
  intro passes
  induction passes with
  | zero =>
    intro w _ _ _ hpasses
    exact absurd hpasses (not_lt.2 busy_nonneg)
  | succ passes ih =>
    intro w h hstart hbefore hpasses
    obtain ⟨w₁, hpop, hseen, heff, hlater⟩ := popEnds_ok hp.indexed rfl h
    obtain ⟨hseen₂, hlaterWrites⟩ := hseen.popWriteEnds
    obtain ⟨w₂, hw₂⟩ : ∃ w₂, w₂ = Nand.popWriteEnds w₁ := ⟨_, rfl⟩
    have heff₂ : w₂.effective = w.effective := by rw [hw₂]; exact heff
    have hlooked : Looked p w₂ := by
      rw [hw₂]
      exact ⟨hseen₂, fun item hitem => heff ▸ hlater item hitem, hlaterWrites⟩
    have hcount : w₂.count = busy anyKind w₂.effective kept := by
      rw [hlooked.count, (hlooked.upcoming hp).length]
    have hwrites : w₂.writes = busy (only .write) w₂.effective kept := hlooked.writes.trans (hlooked.ofKind hp _)
    have hreads : w₂.reads = busy (only .read) w₂.effective kept := hlooked.reads.trans (hlooked.ofKind hp _)
    rw [previewLoop, get_then, ok_bind hpop, modify_then, get_then, ← hw₂]
    rw [← heff₂] at hstart hbefore hpasses
    rcases blockedBy_cases (hlooked.upcoming hp) hcount limit with ⟨herror, most, hmost, hzero⟩ | ⟨blocked, hok, hnone, hwait⟩
    · exact .inr ⟨w₂, error_bind (raise_error herror), hlooked.toSeen, most, .inl hmost, hzero⟩
    rw [ok_bind (raise_ok hok)]
    rcases blockedBy_cases (hlooked.upcomingWrites hp) hwrites writeLimit with
      ⟨herror, most, hmost, hzero⟩ | ⟨blockedWrites, hok', hnone', hwait'⟩
    · exact .inr ⟨w₂, error_bind (raise_error herror), hlooked.toSeen, most, .inr hmost, hzero⟩
    rw [ok_bind (raise_ok hok')]
    -- until any of the ends waited for there is no room
    have hends : ∀ stop ∈ blocked ++ blockedWrites, w₂.effective < stop ∧ (∃ command ∈ kept, command.1 = stop) ∧
        ∀ t, w₂.effective ≤ t → t < stop → ¬Free limit writeLimit kept t := by
      intro stop hstop
      rcases List.mem_append.1 hstop with hstop | hstop
      · obtain ⟨hlt, hcommand, most, hmost, hfull⟩ := hwait stop hstop
        exact ⟨hlt, hcommand, fun t ht hts hfree => absurd (hfree.1 most hmost) (not_lt.2 (hfull t ht hts))⟩
      · obtain ⟨hlt, hcommand, most, hmost, hfull⟩ := hwait' stop hstop
        exact ⟨hlt, hcommand, fun t ht hts hfree => absurd (hfree.2 most hmost) (not_lt.2 (hfull t ht hts))⟩
    cases hall : blocked ++ blockedWrites with
    | nil =>
      obtain ⟨hfirst, hsecond⟩ := List.append_eq_nil_iff.1 hall
      refine .inl ⟨⟨w₂.effective, w₂.count, w₂.reads, w₂.writes⟩, w₂, rfl, hlooked.toSeen,
        ⟨hcount, hreads, hwrites⟩, ⟨hstart, hnone hfirst, hnone' hsecond⟩, fun t ⟨ht, hfree⟩ => ?_⟩
      exact not_lt.1 fun hlt => hbefore t ht hlt hfree
    | cons first rest =>
      obtain ⟨hlt, ⟨command, hcommand, hstop⟩, hfull⟩ := hends _ (hall ▸ foldl_max_mem first rest)
      have hmax : max w₂.effective (rest.foldl max first) = rest.foldl max first := max_eq_right hlt.le
      have hless : busy anyKind (rest.foldl max first) kept < busy anyKind w₂.effective kept := by
        exact busy_lt hcommand rfl (hstop ▸ hlt) hstop.le
      dsimp only
      rw [set_then, hmax]
      refine ih (w := { w₂ with effective := rest.foldl max first }) ?_ (hstart.trans hlt.le) (fun t ht hts => ?_)
        (by push_cast at hpasses; exact lt_of_lt_of_le hless (Int.lt_add_one_iff.1 hpasses))
      · exact ⟨hlooked.commands, hlooked.counts, hlooked.heap, hlooked.writeHeap, hlooked.ends, hlooked.writeEnds,
          fun item hitem => (hlooked.gone item hitem).trans hlt.le,
          fun item hitem => (hlooked.goneWrites item hitem).trans hlt.le, hlooked.count, hlooked.reads, hlooked.writes⟩
      · rcases lt_or_ge t w₂.effective with hearly | hlate
        · exact hbefore t ht hearly
        · exact hfull t hlate hts

/-- No limit is zero. -/
def Positive (limit writeLimit : Option ℤ) : Prop := ∀ most, most ∈ limit ∨ most ∈ writeLimit → 0 < most

theorem not_free_of_not_positive (h : ¬Positive limit writeLimit) (t : ℚ) : ¬Free limit writeLimit kept t := by
  intro hfree
  refine h fun most hmost => ?_
  rcases hmost with hmost | hmost
  · exact busy_nonneg.trans_lt (hfree.1 most hmost)
  · exact busy_nonneg.trans_lt (hfree.2 most hmost)

/-- **A preview answers the least time with room and leaves the population as
it was.** -/
theorem preview_spec (hp : p.Tracks kept) (start : ℚ) (limit writeLimit : Option ℤ) :
    (Positive limit writeLimit → ∃ a, p.preview start limit writeLimit = .ok a p ∧ Counts a kept ∧
      IsLeast {t | start ≤ t ∧ Free limit writeLimit kept t} a.effective) ∧
    (¬Positive limit writeLimit → p.preview start limit writeLimit = .error .indexError p) := by
  have hcount : (p.commands.items.length : ℤ) = p.ends.length := by
    rw [hp.indexed.ends.length_eq, List.length_map]
  have hopen : Seen p ⟨p, [], [], p.reads, p.writes, p.commands.items.length, start⟩ := by
    have hkind : ∀ kind, (p.commands.values.countP fun command => kind command.2) = p.ends.countP (kindAt p kind) := by
      intro kind
      rw [hp.indexed.ends.countP_eq, Dict.values, List.countP_map, List.countP_map]
      refine List.countP_congr fun entry hitem => ?_
      obtain ⟨index, stop, operation⟩ := entry
      have hget : p.commands.get? (commandOf (endOf (index, stop, operation))) = some (stop, operation) :=
        Dict.get?_eq_some.2 hitem
      simp only [Function.comp_apply, kindAt, hget, Option.any_some]
    exact ⟨rfl, ⟨rfl, rfl, rfl⟩, hp.indexed.heap, hp.writeHeap, .refl _, .refl _, by simp, by simp, hcount,
      hp.indexed.reads.trans (by rw [hkind]), hp.indexed.writes.trans (by rw [hkind])⟩
  have hpasses : busy anyKind start kept < ((p.ends.length + 1 : ℕ) : ℤ) := by
    have hle : busy anyKind start kept ≤ kept.length := Int.ofNat_le.2 List.countP_le_length
    have hlength : (kept.length : ℤ) = p.ends.length := by
      rw [← hp.values, Dict.values, List.length_map, hcount]
    push_cast
    omega
  have hloop := previewLoop_spec limit writeLimit hp hopen le_rfl (fun t ht hlt => absurd hlt (not_lt.2 ht)) hpasses
  rcases hloop with ⟨a, w, hok, hseen, hcounts, hleast⟩ | ⟨w, herror, hseen, most, hmost, hzero⟩
  · refine ⟨fun _ => ⟨a, ?_, hcounts, hleast⟩, fun h => absurd hleast.1.2 (not_free_of_not_positive h _)⟩
    rw [HostPopulation.preview, hok]
    exact congrArg _ (hseen.restored hp)
  · refine ⟨fun h => absurd (h most hmost) (not_lt.2 hzero), fun _ => ?_⟩
    rw [HostPopulation.preview, herror]
    exact congrArg _ (hseen.restored hp)

end Preview

/-! ## Runs of a population -/

/-- A recorded interval. -/
structure HostRecord where
  start : ℚ
  stop : ℚ
  operation : Operation

/-- All recorded commands. -/
def recorded (commands : List (ℚ × Operation)) (records : List HostRecord) : List (ℚ × Operation) :=
  commands ++ records.map fun r => (r.stop, r.operation)

/-- Those that no later record has retired. -/
def outstanding (commands : List (ℚ × Operation)) (records : List HostRecord) : List (ℚ × Operation) :=
  records.foldl (fun kept r => (kept.filter fun command => decide (r.start < command.1)) ++ [(r.stop, r.operation)]) commands

theorem busy_append (l r : List (ℚ × Operation)) : busy kind t (l ++ r) = busy kind t l + busy kind t r := by
  rw [busy, List.countP_append, Nat.cast_add]
  rfl

theorem busy_filter (h : u ≤ t) : busy kind t (kept.filter fun command => decide (u < command.1)) = busy kind t kept := by
  rw [busy, List.countP_filter, busy]
  congr 1
  refine List.countP_congr fun command _ => ?_
  by_cases hlater : t < command.1
  · simp [hlater, h.trans_lt hlater]
  · simp [hlater]

/-- **From the last record on, what was retired does not count.** -/
theorem busy_outstanding {records : List HostRecord} : ∀ {commands : List (ℚ × Operation)}, (∀ r ∈ records, r.start ≤ t) →
    busy kind t (outstanding commands records) = busy kind t (recorded commands records) := by
  induction records with
  | nil =>
    intro commands _
    rw [recorded, List.map_nil, List.append_nil]
    rfl
  | cons r records ih =>
    intro commands h
    obtain ⟨hr, hrest⟩ := List.forall_mem_cons.1 h
    have hstep := @ih ((commands.filter fun command => decide (r.start < command.1)) ++ [(r.stop, r.operation)]) hrest
    rw [outstanding, List.foldl_cons]
    refine hstep.trans ?_
    have hcons : busy kind t ((r.stop, r.operation) :: records.map fun r => (r.stop, r.operation)) =
        busy kind t [(r.stop, r.operation)] + busy kind t (records.map fun r => (r.stop, r.operation)) := busy_append [_] _
    rw [recorded, recorded, List.map_cons, busy_append, busy_append, busy_append, hcons, busy_filter hr, add_assoc]

theorem free_outstanding {limit writeLimit : Option ℤ} {commands : List (ℚ × Operation)} {records : List HostRecord}
    (h : ∀ r ∈ records, r.start ≤ t) :
    Free limit writeLimit (outstanding commands records) t ↔ Free limit writeLimit (recorded commands records) t := by
  rw [Free, Free, busy_outstanding h, busy_outstanding h]

inductive HostCall
  | preview (effective : ℚ) (limit writeLimit : Option ℤ)
  | record (effective completion : ℚ) (operation : Operation)

/-- A call on a population, and what is recorded with it. -/
def Calls (s : HostPopulation × List HostRecord) : HostCall → HostPopulation × List HostRecord → Prop
  | .preview effective limit writeLimit, s' =>
    ((∃ a, s.1.preview effective limit writeLimit = .ok a s'.1) ∨ ∃ e, s.1.preview effective limit writeLimit = .error e s'.1) ∧
      s'.2 = s.2
  | .record effective completion operation, s' =>
    (s.1.record effective completion operation = .ok () s'.1 ∧ s'.2 = s.2 ++ [⟨effective, completion, operation⟩]) ∨
      ∃ e, s.1.record effective completion operation = .error e s'.1 ∧ s'.2 = s.2

theorem outstanding_snoc (commands : List (ℚ × Operation)) (records : List HostRecord) (r : HostRecord) :
    outstanding commands (records ++ [r]) =
      ((outstanding commands records).filter fun command => decide (r.start < command.1)) ++ [(r.stop, r.operation)] := by
  rw [outstanding, List.foldl_append]
  rfl

/-- A call keeps the population of what is outstanding. -/
theorem Calls.tracks {commands : List (ℚ × Operation)} {s s' : HostPopulation × List HostRecord} {call : HostCall}
    (hs : s.1.Tracks (outstanding commands s.2)) (h : Calls s call s') : s'.1.Tracks (outstanding commands s'.2) := by
  cases call with
  | preview effective limit writeLimit =>
    obtain ⟨hcall, hrecords⟩ := h
    obtain ⟨hpositive, hzero⟩ := Preview.preview_spec hs effective limit writeLimit
    have hsame : s'.1 = s.1 := by
      by_cases hp : Preview.Positive limit writeLimit
      · obtain ⟨a, hok, -⟩ := hpositive hp
        rcases hcall with ⟨b, hcall⟩ | ⟨e, hcall⟩
        · exact (EStateM.Result.ok.inj (hok.symm.trans hcall)).2.symm
        · cases hok.symm.trans hcall
      · rcases hcall with ⟨b, hcall⟩ | ⟨e, hcall⟩
        · cases (hzero hp).symm.trans hcall
        · exact (EStateM.Result.error.inj ((hzero hp).symm.trans hcall)).2.symm
    rw [hsame, hrecords]
    exact hs
  | record effective completion operation =>
    obtain ⟨p', hok, htracks⟩ := hs.record effective completion operation
    rcases h with ⟨hcall, hrecords⟩ | ⟨e, hcall, -⟩
    · rw [← (EStateM.Result.ok.inj (hok.symm.trans hcall)).2, hrecords, outstanding_snoc]
      exact htracks
    · cases hok.symm.trans hcall

/-! ## Runs of a core -/

inductive HostEvent
  /-- A request whose execution raises. -/
  | raised (r : Task.AccessRequest) (channel : ℕ)
  | executed (r : Task.AccessRequest) (channel : ℕ) (completion : ℚ)
  /-- The caller advances the clock. -/
  | advanced (now : ℚ)

/-- What an event does, and what is recorded for which queue. -/
def Admits (c : HostConfig) (s : HostQueues × List (Option ℕ × HostRecord)) :
    HostEvent → HostQueues × List (Option ℕ × HostRecord) → Prop
  | .raised r channel, s' => (∃ a, HostQueues.admitHostRequest c r channel s.1 = .ok a s'.1) ∧ s'.2 = s.2
  | .executed r channel completion, s' =>
    ∃ a queue t, HostQueues.admitHostRequest c r channel s.1 = .ok (a, queue) t ∧
      HostQueues.recordHostAdmission queue a.effective completion r.operation t = .ok () s'.1 ∧
      s'.2 = s.2 ++ [(queue, ⟨a.effective, completion, r.operation⟩)]
  | .advanced now, s' => s'.1 = { s.1 with acceptance := max s.1.acceptance now } ∧ s'.2 = s.2

/-- What was recorded for a queue. -/
def recordsOf (queue : Option ℕ) (records : List (Option ℕ × HostRecord)) : List HostRecord :=
  (records.filter fun entry => decide (entry.1 = queue)).map Prod.snd

theorem recordsOf_snoc (queue other : Option ℕ) (records : List (Option ℕ × HostRecord)) (r : HostRecord) :
    recordsOf queue (records ++ [(other, r)]) = recordsOf queue records ++ if other = queue then [r] else [] := by
  rw [recordsOf, List.filter_append, List.map_append]
  by_cases h : other = queue
  · simp [recordsOf, h]
  · simp [recordsOf, h]

/-- Every queue is of what is outstanding in it, and its clock is at or after
what was admitted to it. -/
structure HostBooks (s : HostQueues × List (Option ℕ × HostRecord)) : Prop where
  tracks : ∀ queue, (s.1.population queue).Tracks (outstanding [] (recordsOf queue s.2))
  past : ∀ queue, ∀ r ∈ recordsOf queue s.2, r.start ≤ s.1.clock queue

namespace HostQueues

theorem withPopulation_self (s : HostQueues) (queue : Option ℕ) : s.withPopulation (s.population queue) queue = s := by
  cases queue with
  | none => rfl
  | some channel =>
    rw [withPopulation]
    split
    · next hmem =>
      obtain ⟨p, hp⟩ := Dict.mem_keys.1 hmem
      rw [population, hp, Option.getD_some, Dict.insert_of_get? hp]
    · rfl

/-- What a request may fill. -/
def writeLimit (c : HostConfig) (r : Task.AccessRequest) : Option ℤ :=
  if r.operation = .write then c.maxOutstandingWriteRequests.map Nat.cast else none

theorem limits_positive (c : HostConfig) (r : Task.AccessRequest) : Preview.Positive (some c.maxOutstandingRequests) (writeLimit c r) := by
  intro most hmost
  rcases hmost with hmost | hmost
  · rw [← Option.some.inj hmost]
    exact Int.natCast_pos.2 c.outstanding_pos
  · unfold writeLimit at hmost
    split at hmost
    · obtain ⟨limit, hlimit, rfl⟩ := Option.map_eq_some_iff.1 hmost
      exact Int.natCast_pos.2 (c.writes_pos limit hlimit)
    · cases hmost

/-- **Admission leaves the queues as they were.** -/
theorem admitHostRequest_spec {s : HostQueues × List (Option ℕ × HostRecord)} (h : HostBooks s) (c : HostConfig)
    (r : Task.AccessRequest) (channel : ℕ) : ∃ a, admitHostRequest c r channel s.1 = .ok (a, queueOf c channel) s.1 ∧
      Preview.Counts a (recorded [] (recordsOf (queueOf c channel) s.2)) ∧
      IsLeast {t | r.arrival ≤ t ∧ s.1.clock (queueOf c channel) ≤ t ∧
        Free (some c.maxOutstandingRequests) (writeLimit c r) (recorded [] (recordsOf (queueOf c channel) s.2)) t} a.effective := by
  obtain ⟨a, hok, ⟨hcount, hreads, hwrites⟩, ⟨hafter, hfree⟩, hleast⟩ := (Preview.preview_spec (h.tracks (queueOf c channel))
    (max r.arrival (s.1.clock (queueOf c channel))) (some c.maxOutstandingRequests) (writeLimit c r)).1 (limits_positive c r)
  have hpast : ∀ {t}, s.1.clock (queueOf c channel) ≤ t → ∀ r ∈ recordsOf (queueOf c channel) s.2, r.start ≤ t :=
    fun ht r hr => (h.past _ r hr).trans ht
  obtain ⟨harrival, hclock⟩ := max_le_iff.1 hafter
  rw [busy_outstanding (hpast hclock)] at hcount hreads hwrites
  refine ⟨a, ?_, ⟨hcount, hreads, hwrites⟩, ⟨harrival, hclock, (free_outstanding (hpast hclock)).1 hfree⟩, fun t ⟨ht, htc, hf⟩ =>
    hleast ⟨max_le ht htc, (free_outstanding (hpast htc)).2 hf⟩⟩
  have hself := s.1.withPopulation_self (queueOf c channel)
  unfold writeLimit at hok
  rw [admitHostRequest, hok]
  exact congrArg _ hself

/-- A record moves one queue, and its clock to the admission. -/
theorem recordHostAdmission_spec {s : HostQueues} {queue : Option ℕ} {effective completion : ℚ} {operation : Operation}
    {p : HostPopulation} (hclock : s.clock queue ≤ effective)
    (hp : (s.population queue).record effective completion operation = .ok () p) :
    ∃ s', recordHostAdmission queue effective completion operation s = .ok () s' ∧ s'.population queue = p ∧
      (∀ other, other ≠ queue → s'.population other = s.population other) ∧ (∀ other, s.clock other ≤ s'.clock other) ∧
      effective ≤ s'.clock queue := by
  cases queue with
  | none =>
    refine ⟨{ s with acceptance := effective, inflightOperations := p }, ?_, rfl, fun other hne => ?_, fun other => ?_, le_rfl⟩
    · rw [recordHostAdmission, hp]
    · cases other with
      | none => exact absurd rfl hne
      | some channel => rfl
    · cases other with
      | none => exact hclock
      | some channel => exact max_le_max_left _ hclock
  | some channel =>
    refine ⟨{ s with
      hostAcceptance := s.hostAcceptance.insert channel effective
      hostInflight := s.hostInflight.insert channel p }, ?_, ?_, fun other hne => ?_, fun other => ?_, ?_⟩
    · rw [recordHostAdmission, hp]
    · simp [population]
    · cases other with
      | none => rfl
      | some other =>
        have hne' : other ≠ channel := fun he => hne (congrArg some he)
        simp [population, Dict.get?_insert, hne']
    · cases other with
      | none => exact le_rfl
      | some other =>
        by_cases he : other = channel
        · subst he
          refine hclock.trans (le_trans ?_ (le_max_left _ _))
          simp
        · simp [clock, Dict.get?_insert, he]
    · refine le_trans ?_ (le_max_left _ _)
      simp

end HostQueues

theorem Admits.books {c : HostConfig} {s s' : HostQueues × List (Option ℕ × HostRecord)} {e : HostEvent} (h : HostBooks s)
    (he : Admits c s e s') : HostBooks s' := by
  cases e with
  | raised r channel =>
    obtain ⟨⟨a, hadmit⟩, hrecords⟩ := he
    obtain ⟨b, hok, -⟩ := HostQueues.admitHostRequest_spec h c r channel
    have hsame : s' = s := Prod.ext (EStateM.Result.ok.inj (hok.symm.trans hadmit)).2.symm hrecords
    rw [hsame]
    exact h
  | advanced now =>
    obtain ⟨hstate, hrecords⟩ := he
    refine ⟨fun queue => ?_, fun queue r hr => ?_⟩
    · rw [hrecords, hstate]
      cases queue with
      | none => exact h.tracks none
      | some channel => exact h.tracks (some channel)
    · rw [hrecords] at hr
      refine (h.past queue r hr).trans ?_
      rw [hstate]
      cases queue with
      | none => exact le_max_left _ _
      | some channel => exact max_le_max_left _ (le_max_left _ _)
  | executed r channel completion =>
    obtain ⟨a, queue, t, hadmit, hrecord, hrecords⟩ := he
    obtain ⟨b, hok, -, hleast⟩ := HostQueues.admitHostRequest_spec h c r channel
    obtain ⟨hab, rfl⟩ := EStateM.Result.ok.inj (hok.symm.trans hadmit)
    obtain ⟨rfl, rfl⟩ := Prod.mk.inj hab
    have hclock := hleast.1.2.1
    obtain ⟨p', hp', htracks⟩ := (h.tracks (HostQueues.queueOf c channel)).record b.effective completion r.operation
    obtain ⟨t, hok', hsame, hothers, hclocks, hlast⟩ := HostQueues.recordHostAdmission_spec hclock hp'
    obtain rfl := (EStateM.Result.ok.inj (hok'.symm.trans hrecord)).2
    refine ⟨fun queue => ?_, fun queue record hr => ?_⟩
    · rw [hrecords, recordsOf_snoc]
      by_cases hqueue : HostQueues.queueOf c channel = queue
      · subst hqueue
        rw [hsame, if_pos rfl, outstanding_snoc]
        exact htracks
      · rw [hothers queue (Ne.symm hqueue), if_neg hqueue, List.append_nil]
        exact h.tracks queue
    · rw [hrecords, recordsOf_snoc] at hr
      rcases List.mem_append.1 hr with hr | hr
      · exact (h.past queue record hr).trans (hclocks queue)
      · split at hr
        · next hqueue =>
          rw [List.mem_singleton.1 hr, ← hqueue]
          exact hlast
        · cases hr

/-- A core as it is constructed. -/
def Fresh (s : HostQueues × List (Option ℕ × HostRecord)) : Prop := s = (⟨0, .ofCommands [], .empty, .empty⟩, [])

theorem HostBooks.fresh {s : HostQueues × List (Option ℕ × HostRecord)} (h : Fresh s) : HostBooks s := by
  rw [h]
  refine ⟨fun queue => ?_, fun queue r hr => (by cases hr)⟩
  cases queue with
  | none => exact HostPopulation.tracks_ofCommands []
  | some channel => exact HostPopulation.tracks_ofCommands []

/-- **Host admission is exact.** After any calls on a population, a preview
with positive limits answers the least time, not before the one it is asked
for, with room among the commands no later record retired, the counts there,
and the population as it was; no earlier than every record these are all that
was recorded. A core always asks there: an admission answers the least time
with room among all that was recorded for its queue, and changes nothing. -/
theorem host_admission_exact :
    (∀ commands s, Reached Calls (fun s => s = (HostPopulation.ofCommands commands, [])) s →
      ∀ start limit writeLimit,
        (Preview.Positive limit writeLimit → ∃ a, s.1.preview start limit writeLimit = .ok a s.1 ∧
          Preview.Counts a (outstanding commands s.2) ∧
          IsLeast {t | start ≤ t ∧ Free limit writeLimit (outstanding commands s.2) t} a.effective) ∧
        (¬Preview.Positive limit writeLimit → s.1.preview start limit writeLimit = .error .indexError s.1) ∧
        ∀ t, (∀ r ∈ s.2, r.start ≤ t) → ∀ kind, busy kind t (outstanding commands s.2) = busy kind t (recorded commands s.2)) ∧
    ∀ c s, Reached (Admits c) Fresh s → ∀ r channel, ∃ a,
      HostQueues.admitHostRequest c r channel s.1 = .ok (a, HostQueues.queueOf c channel) s.1 ∧
      Preview.Counts a (recorded [] (recordsOf (HostQueues.queueOf c channel) s.2)) ∧
      IsLeast {t | r.arrival ≤ t ∧ s.1.clock (HostQueues.queueOf c channel) ≤ t ∧
        Free (some c.maxOutstandingRequests) (HostQueues.writeLimit c r)
          (recorded [] (recordsOf (HostQueues.queueOf c channel) s.2)) t} a.effective := by
  refine ⟨fun commands s h start limit writeLimit => ?_, fun c s h r channel => ?_⟩
  · have htracks : s.1.Tracks (outstanding commands s.2) := by
      refine h.keeps (fun s hs => ?_) fun s call s' hs hcall => hcall.tracks hs
      rw [hs]
      exact HostPopulation.tracks_ofCommands commands
    obtain ⟨hpositive, hzero⟩ := Preview.preview_spec htracks start limit writeLimit
    exact ⟨hpositive, hzero, fun t ht kind => busy_outstanding ht⟩
  · have hbooks : HostBooks s := h.keeps (fun _ => .fresh) fun _ _ _ hs hstep => hstep.books hs
    exact HostQueues.admitHostRequest_spec hbooks c r channel

def twoReads : HostPopulation := .ofCommands [(10, .read), (10, .read)]

theorem host_admission_exact_twoReads : ∃ a, twoReads.preview 5 (some 2) none = .ok a twoReads ∧
    Preview.Counts a (outstanding [(10, .read), (10, .read)] []) ∧
    IsLeast {t | 5 ≤ t ∧ Free (some 2) none (outstanding [(10, .read), (10, .read)] []) t} a.effective :=
  (host_admission_exact.1 [(10, .read), (10, .read)] (twoReads, []) (.of_init rfl) 5 (some 2) none).1 (by
    intro most hmost
    rcases hmost with hmost | hmost
    · rw [← Option.some.inj hmost]
      decide
    · cases hmost)

/-- Two reads until 10, and one from 20 on. -/
def threeReads : List HostRecord := [⟨0, 10, .read⟩, ⟨0, 10, .read⟩, ⟨20, 30, .read⟩]

/-- The third read has retired the first two, so before they end their credits
are free. -/
theorem host_admission_exact_retired : ∃ p a, (do
      HostPopulation.record 0 10 .read
      HostPopulation.record 0 10 .read
      HostPopulation.record 20 30 .read) (HostPopulation.ofCommands []) = .ok () p ∧
    p.preview 5 (some 2) none = .ok a p ∧ a.effective = 5 ∧
    ¬Free (some 2) none (recorded [] threeReads) 5 ∧ (threeReads.filter fun r => decide (r.start ≤ 5 ∧ 5 < r.stop)).length = 2 := by
  exact ⟨_, _, rfl, rfl, rfl, fun hfree => absurd (hfree.1 2 rfl) (by decide), by decide⟩

end HeteroSim.Nand
