/-
A batch is executed in order where its accesses conflict: the scheduled
windows wait for each other's completions, and the other batches hold no
conflict.
-/
import HeteroSim.Task.Execute
import HeteroSim.Task.Window

namespace HeteroSim.Task

variable {σ κ : Type}

/-! ## Submitting a batch -/

variable {core : Core σ} {requests : List AccessRequest}

/-- A run that keeps the order of requests without conflicts. -/
theorem orderly_of_places {run : List Executed} (hrun : run.map (fun x => (x.index, x.request)) = places requests)
    (h : requests.Pairwise fun r q => ¬r.Conflicts q) : Orderly requests run := by
  have hmem : ∀ x ∈ run, requests[x.index]? = some x.request := fun x hx =>
    mem_places (p := (x.index, x.request)) (hrun ▸ List.mem_map_of_mem hx)
  refine ⟨?_, fun x hx => ⟨x.request, hmem x hx, rfl, le_rfl⟩, fun x hx y hy hxy hc => ?_⟩
  · rw [← map_fst_places requests, ← hrun, List.map_map]
    exact List.Perm.refl _
  · obtain ⟨hi, hxi⟩ := List.getElem?_eq_some_iff.1 (hmem x hx)
    obtain ⟨hj, hyj⟩ := List.getElem?_eq_some_iff.1 (hmem y hy)
    have hfree := List.pairwise_iff_getElem.1 h x.index y.index hi hj hxy
    rw [hxi, hyj] at hfree
    exact absurd hc hfree

theorem submitOrdered_orderly (h : requests.Pairwise fun r q => ¬r.Conflicts q) :
    Returns (submitOrdered core requests) (Orderly requests) := by
  refine (Returns.any _).bind fun completions _ => Returns.pure (orderly_of_places ?_ h)
  rw [List.map_map]
  exact List.map_id'' (fun _ => rfl) _

theorem submitEach_places : ∀ l : List (ℕ × AccessRequest),
    Returns (submitEach core l) fun run => run.map (fun x => (x.index, x.request)) = l
  | [] => Returns.pure rfl
  | p :: l => (Returns.any _).bind fun completion _ => (submitEach_places l).bind fun run hrun =>
      Returns.pure (by rw [List.map_cons, hrun])

theorem submitManyDram_orderly (c : Controller)
    (h : c.geometry.scheduler = .fcfs → requests.Pairwise fun r q => ¬r.Conflicts q) :
    Returns (submitManyDram core c requests) (Orderly requests) := by
  have hvalid : ∀ r : AccessRequest, Returns (raise (validateDramRequest r c.geometry) : EStateM String σ Unit)
      fun _ => c.endBurst r ≤ c.capacity := fun r => Returns.raise fun u hu => c.endBurst_le hu
  refine (Returns.forM hvalid requests).bind fun _ hfit => ?_
  refine Returns.ite (fun _ => submitFrFcfs_orderly requests) fun _ => ?_
  refine Returns.ite (fun _ => Controller.scheduleRequests_orderly hfit) fun hshort => submitOrdered_orderly ?_
  by_cases hfcfs : c.geometry.scheduler = .fcfs
  · exact h hfcfs
  · have hlen : requests.length ≤ 1 := by
      by_contra hlong
      exact hshort ⟨hfcfs, by omega⟩
    match requests, hlen with
    | [], _ => exact .nil
    | [_], _ => exact List.pairwise_singleton _ _

/-- **A batch whose core does not schedule it must be free of conflicts.** -/
theorem submitBatch_orderly {kind : CoreKind}
    (h : kind.scheduled = false → requests.Pairwise fun r q => ¬r.Conflicts q) :
    Returns (submitBatch core kind requests) (Orderly requests) := by
  unfold submitBatch
  refine Returns.ite (fun _ => ?_) fun halone => ?_
  · cases kind with
    | dram c => exact submitManyDram_orderly c fun hfcfs => h (by simp [CoreKind.scheduled, hfcfs])
    | nand => exact submitOrdered_orderly (h rfl)
    | sram => exact submitOrdered_orderly (h rfl)
  · have hoff : kind.scheduled = false := Bool.eq_false_iff.2 fun hon => halone (.inl hon)
    exact (submitEach_places _).mono fun run hrun => orderly_of_places hrun (h hoff)

/-! ## Joining a batch -/

/-- The byte ranges overlap, and one of the accesses writes. -/
def Instruction.Clashes (i j : Instruction κ) : Prop :=
  (i.address < j.stop ∧ j.address < i.stop) ∧ (i.command.recorded = .write ∨ j.command.recorded = .write)

/-- A later access of the same batch. -/
def Joins (first next : Instruction κ) : Prop := next.owner = first.owner ∧ next.command ≠ .flush

variable [DecidableEq κ]

theorem ascending_starts (first : Instruction κ) : ∀ (rest : List (Instruction κ)) (previousEnd : ℕ),
    ascending first previousEnd rest <+: rest
  | [], _ => List.nil_prefix
  | next :: rest, _ => by
    unfold ascending
    split
    · exact List.nil_prefix
    · split
      · exact List.nil_prefix
      · exact List.cons_prefix_cons.2 ⟨rfl, ascending_starts first rest _⟩

theorem mem_ascending (first : Instruction κ) : ∀ {rest : List (Instruction κ)} {previousEnd : ℕ} {next : Instruction κ},
    next ∈ ascending first previousEnd rest → next.owner = first.owner ∧ next.command = first.command ∧
      (first.command = .perform .write → previousEnd ≤ next.address)
  | [], _, _, h => by cases h
  | k :: rest, previousEnd, next, h => by
    unfold ascending at h
    split at h
    · cases h
    · next hsame =>
      simp only [not_or, not_not] at hsame
      split at h
      · cases h
      · next hup =>
        rcases List.mem_cons.1 h with rfl | h
        · exact ⟨hsame.1, hsame.2.1, fun hw => by_contra fun hlt => hup ⟨hw, by omega⟩⟩
        · obtain ⟨ho, hc, hle⟩ := mem_ascending first h
          refine ⟨ho, hc, fun hw => ?_⟩
          have hk : previousEnd ≤ k.address := by_contra fun hlt => hup ⟨hw, by omega⟩
          have := hle hw
          have : k.address < k.stop := Nat.lt_add_of_pos_right k.byteCount_pos
          omega

/-- Reads do not clash, and writes that ascend do not overlap. -/
theorem ascending_free (first : Instruction κ) (hfirst : first.command = .perform .read ∨ first.command = .perform .write) :
    ∀ {rest : List (Instruction κ)} {i : Instruction κ}, i.command = first.command →
      (i :: ascending first i.stop rest).Pairwise fun i j => ¬i.Clashes j
  | [], _, _ => List.pairwise_singleton _ _
  | k :: rest, i, hi => by
    have hhead : ∀ j ∈ ascending first i.stop (k :: rest), ¬i.Clashes j := by
      rintro j hj ⟨⟨_, hlt⟩, hw⟩
      obtain ⟨-, hc, hle⟩ := mem_ascending first hj
      rcases hfirst with hr | hw'
      · rw [hi, hc, hr] at hw
        simp [Command.recorded] at hw
      · have := hle hw'
        omega
    refine List.pairwise_cons.2 ⟨hhead, ?_⟩
    unfold ascending
    split
    · exact .nil
    · next hsame =>
      simp only [not_or, not_not] at hsame
      split
      · exact .nil
      · exact ascending_free first hfirst hsame.2.1

omit [DecidableEq κ] in
theorem takeWhile_reads_free {p : Instruction κ → Bool} (hp : ∀ j, p j = true → j.command = .perform .read)
    {first : Instruction κ} (hfirst : first.command = .perform .read) (rest : List (Instruction κ)) :
    (first :: rest.takeWhile p).Pairwise fun i j => ¬i.Clashes j := by
  have hread : ∀ j ∈ first :: rest.takeWhile p, j.command = .perform .read := fun j hj => by
    rcases List.mem_cons.1 hj with rfl | hj
    · exact hfirst
    · exact hp j (List.mem_takeWhile_imp hj)
  refine List.pairwise_of_forall_mem_list fun i hi j hj hc => ?_
  have := hc.2
  rw [hread i hi, hread j hj] at this
  simp [Command.recorded] at this

/-- **A batch is a run of its owner's following accesses, and holds no clash
unless its core schedules it.** -/
theorem joined_spec (rt : Runtime σ κ) (kind : CoreKind) (first : Instruction κ) (rest : List (Instruction κ)) :
    rt.joined kind first rest <+: rest ∧ (first.command ≠ .flush → ∀ next ∈ rt.joined kind first rest, Joins first next) ∧
      (kind.scheduled = false → (first :: rt.joined kind first rest).Pairwise fun i j => ¬i.Clashes j) := by
  have hnil : ([] : List (Instruction κ)) <+: rest ∧
      (first.command ≠ .flush → ∀ next ∈ ([] : List (Instruction κ)), Joins first next) ∧
      (kind.scheduled = false → [first].Pairwise fun i j => ¬i.Clashes j) :=
    ⟨List.nil_prefix, by simp, fun _ => List.pairwise_singleton _ _⟩
  cases kind with
  | dram c =>
    simp only [Runtime.joined]
    split
    · next hsched =>
      refine ⟨List.takeWhile_prefix _, fun _ next hnext => ?_, fun hoff => ?_⟩
      · have := List.mem_takeWhile_imp hnext
        simp only [decide_eq_true_eq] at this
        exact ⟨this.1, by rcases this.2.2 with h | h <;> simp [h]⟩
      · simp [CoreKind.scheduled, hsched] at hoff
    · split
      · next hgo =>
        refine ⟨ascending_starts first rest _, fun hne next hnext => ?_, fun _ => ascending_free first hgo.2.2 rfl⟩
        obtain ⟨ho, hc, -⟩ := mem_ascending first hnext
        exact ⟨ho, hc ▸ hne⟩
      · exact hnil
  | nand =>
    simp only [Runtime.joined]
    split
    · next hgo =>
      refine ⟨List.takeWhile_prefix _, fun _ next hnext => ?_, fun _ => ?_⟩
      · have := List.mem_takeWhile_imp hnext
        simp only [decide_eq_true_eq] at this
        exact ⟨this.1, by simp [this.2.2]⟩
      · exact takeWhile_reads_free (fun j hj => (of_decide_eq_true hj).2.2) hgo.2 rest
    · exact hnil
  | sram => exact hnil

end HeteroSim.Task
