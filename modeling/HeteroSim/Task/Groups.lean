/-
FR-FCFS over one arrived window (`_submit_fr_fcfs`): requests are queued in
groups without conflicts, and a request that conflicts with an earlier group's
waits for its completion.
-/
import HeteroSim.Intervals
import HeteroSim.Raising
import HeteroSim.Task.Requests

namespace HeteroSim.Task

variable {σ : Type}

/-- `_fr_fcfs_after_dependencies` -/
def afterDependencies (r : AccessRequest) (finished : List Executed) : AccessRequest :=
  r.arriving (finished.foldl (fun ready x => if x.request.Conflicts r then max ready x.completion else ready) r.arrival)

/-- The variables of `_submit_fr_fcfs`; what is finished is its results. -/
structure Grouping where
  finished : List Executed
  group : List (ℕ × AccessRequest)
  all : List Gap
  writes : List Gap

variable (core : Core σ)

/-- `run_group` -/
def runGroup (g : Grouping) : EStateM String σ Grouping := do
  let completions ← core.executeFrFcfs (g.group.map fun p => afterDependencies p.2 g.finished)
  let executed := (places g.group).map fun p => ⟨p.2.1, afterDependencies p.2.2 g.finished, completions p.1⟩
  pure ⟨g.finished ++ executed, [], [], []⟩

/-- Whether the request conflicts with the group, by its intervals. -/
def Grouping.clashes (g : Grouping) (r : AccessRequest) : Bool :=
  intervalsOverlap (if r.operation = .write then g.all else g.writes) r.address r.stop

def Grouping.enter (g : Grouping) (anyWrite : Bool) (p : ℕ × AccessRequest) : Grouping :=
  { g with
    group := g.group ++ [p]
    all := if anyWrite then intervalsAdd g.all p.2.address p.2.stop else g.all
    writes := if anyWrite ∧ p.2.operation = .write then intervalsAdd g.writes p.2.address p.2.stop else g.writes }

/-- A request that conflicts with the group has it executed first. -/
def settle (anyWrite : Bool) (r : AccessRequest) (g : Grouping) : EStateM String σ Grouping :=
  if anyWrite = true ∧ g.clashes r = true then runGroup core g else pure g

def groupLoop (anyWrite : Bool) : List (ℕ × AccessRequest) → Grouping → EStateM String σ Grouping
  | [], g => runGroup core g
  | p :: rest, g => do
    let g ← settle core anyWrite p.2 g
    groupLoop anyWrite rest (g.enter anyWrite p)

/-- `_submit_fr_fcfs` -/
def submitFrFcfs (requests : List AccessRequest) : EStateM String σ (List Executed) := do
  let anyWrite := requests.any fun r => decide (r.operation = .write)
  let g ← groupLoop core anyWrite (places requests) ⟨[], [], [], []⟩
  pure g.finished

/-! ## Waiting for what is finished -/

theorem le_foldl_after (r : AccessRequest) : ∀ (finished : List Executed) (ready : ℚ),
    ready ≤ finished.foldl (fun ready x => if x.request.Conflicts r then max ready x.completion else ready) ready ∧
      ∀ x ∈ finished, x.request.Conflicts r →
        x.completion ≤ finished.foldl (fun ready x => if x.request.Conflicts r then max ready x.completion else ready) ready
  | [], _ => ⟨le_rfl, by simp⟩
  | y :: finished, ready => by
    obtain ⟨hle, hall⟩ := le_foldl_after r finished (if y.request.Conflicts r then max ready y.completion else ready)
    rw [List.foldl_cons]
    refine ⟨le_trans ?_ hle, fun x hx hc => ?_⟩
    · split
      · exact le_max_left _ _
      · exact le_rfl
    · rcases List.mem_cons.1 hx with rfl | hx
      · refine le_trans ?_ hle
        rw [if_pos hc]
        exact le_max_right _ _
      · exact hall x hx hc

theorem afterDependencies_arrival (r : AccessRequest) (finished : List Executed) :
    r.arrival ≤ (afterDependencies r finished).arrival ∧
      ∀ x ∈ finished, x.request.Conflicts r → x.completion ≤ (afterDependencies r finished).arrival :=
  le_foldl_after r finished r.arrival

/-! ## Groups without conflicts -/

/-- A group without conflicts, and its intervals. -/
structure Formed (anyWrite : Bool) (g : Grouping) : Prop where
  independent : g.group.Pairwise fun p q => ¬p.2.Conflicts q.2
  separated : Separated g.all ∧ Separated g.writes
  held : anyWrite = true → ∀ p ∈ g.group, ∀ x : Int, p.2.address ≤ x → x < p.2.stop →
    Holds g.all x ∧ (p.2.operation = .write → Holds g.writes x)

/-- What is finished, the group and its intervals, before the rest. -/
structure Grouped (requests : List AccessRequest) (anyWrite : Bool) (g : Grouping) (rest : List (ℕ × AccessRequest)) : Prop where
  order : g.finished.map Executed.index ++ g.group.map Prod.fst ++ rest.map Prod.fst = List.range requests.length
  source : ∀ p ∈ g.group ++ rest, requests[p.1]? = some p.2
  same : ∀ x ∈ g.finished, ∃ r, requests[x.index]? = some r ∧ x.request = r.arriving x.request.arrival ∧
    r.arrival ≤ x.request.arrival
  ordered : ∀ x ∈ g.finished, ∀ y ∈ g.finished, x.index < y.index → x.request.Conflicts y.request →
    x.completion ≤ y.request.arrival
  independent : g.group.Pairwise fun p q => ¬p.2.Conflicts q.2
  separated : Separated g.all ∧ Separated g.writes
  held : anyWrite = true → ∀ p ∈ g.group, ∀ x : Int, p.2.address ≤ x → x < p.2.stop →
    Holds g.all x ∧ (p.2.operation = .write → Holds g.writes x)

variable {core} {requests : List AccessRequest} {anyWrite : Bool} {g : Grouping} {rest : List (ℕ × AccessRequest)}

theorem Grouped.formed (h : Grouped requests anyWrite g rest) : Formed anyWrite g := ⟨h.independent, h.separated, h.held⟩

/-- The intervals find every conflict with the group. -/
theorem Formed.clashes (h : Formed anyWrite g) (hany : anyWrite = true) {r : AccessRequest}
    (hclash : ¬g.clashes r = true) : ∀ p ∈ g.group, ¬p.2.Conflicts r := by
  rintro p hp ⟨⟨hl, hr⟩, hw⟩
  refine hclash ?_
  have hlt := r.address_lt_stop
  have hlt' := p.2.address_lt_stop
  -- the larger of the two first bytes is in both ranges
  obtain ⟨hall, hwrites⟩ := h.held hany p hp (max r.address p.2.address : ℕ) (by simp) (by omega)
  unfold Grouping.clashes
  split
  · obtain ⟨k, hk, hlo, hhi⟩ := hall
    exact (intervalsOverlap_iff h.separated.1 (by omega)).2 ⟨k, hk, by omega, by omega⟩
  · next hread =>
    obtain ⟨k, hk, hlo, hhi⟩ := hwrites (hw.resolve_right hread)
    exact (intervalsOverlap_iff h.separated.2 (by omega)).2 ⟨k, hk, by omega, by omega⟩

theorem Formed.enter (h : Formed anyWrite g) {p : ℕ × AccessRequest} (hfree : ∀ q ∈ g.group, ¬q.2.Conflicts p.2) :
    Formed anyWrite (g.enter anyWrite p) := by
  have hlt : (p.2.address : Int) < p.2.stop := by have := p.2.address_lt_stop; omega
  obtain ⟨hall, hallHolds⟩ := intervalsAdd_spec h.separated.1 hlt
  obtain ⟨hwrites, hwritesHolds⟩ := intervalsAdd_spec h.separated.2 hlt
  refine ⟨?_, ⟨?_, ?_⟩, fun hany q hq x hx hx' => ?_⟩
  · exact List.pairwise_append.2 ⟨h.independent, List.pairwise_singleton _ _, fun q hq k hk => by
      rw [List.mem_singleton.1 hk]
      exact hfree q hq⟩
  · simp only [Grouping.enter]
    split
    · exact hall
    · exact h.separated.1
  · simp only [Grouping.enter]
    split
    · exact hwrites
    · exact h.separated.2
  · simp only [Grouping.enter, hany, if_true, true_and]
    rcases List.mem_append.1 hq with hq | hq
    · obtain ⟨hin, hinw⟩ := h.held hany q hq x hx hx'
      refine ⟨(hallHolds x).2 (.inl hin), fun hw => ?_⟩
      split
      · exact (hwritesHolds x).2 (.inl (hinw hw))
      · exact hinw hw
    · rw [List.mem_singleton.1 hq] at hx hx' ⊢
      refine ⟨(hallHolds x).2 (.inr ⟨hx, hx'⟩), fun hw => ?_⟩
      rw [if_pos hw]
      exact (hwritesHolds x).2 (.inr ⟨hx, hx'⟩)

/-- Before a request that starts no new group, nothing in the group conflicts
with it. -/
theorem Formed.free (h : Formed anyWrite g) {r : AccessRequest} (hstay : ¬(anyWrite = true ∧ g.clashes r = true))
    (hnone : anyWrite = false → ∀ p ∈ g.group, ¬p.2.Conflicts r) : ∀ p ∈ g.group, ¬p.2.Conflicts r := by
  cases hany : anyWrite with
  | true => exact h.clashes hany fun hclash => hstay ⟨hany, hclash⟩
  | false => exact hnone hany

theorem Grouped.run (h : Grouped requests anyWrite g rest) :
    Returns (runGroup core g) fun g' => Grouped requests anyWrite g' rest ∧ g'.group = [] := by
  refine (Returns.any _).bind fun completions _ => Returns.pure ?_
  set executed : List Executed :=
    (places g.group).map fun p => ⟨p.2.1, afterDependencies p.2.2 g.finished, completions p.1⟩ with hexecuted
  have hindex : executed.map Executed.index = g.group.map Prod.fst := by
    have hsnd : (places g.group).map Prod.snd = g.group := List.map_snd_zip (by simp)
    calc executed.map Executed.index = ((places g.group).map Prod.snd).map Prod.fst := by
          rw [hexecuted, List.map_map, List.map_map]
          rfl
      _ = g.group.map Prod.fst := by rw [hsnd]
  have hfrom : ∀ x ∈ executed, ∃ p ∈ g.group, x.index = p.1 ∧ x.request = afterDependencies p.2 g.finished := by
    intro x hx
    obtain ⟨p, hp, rfl⟩ := List.mem_map.1 hx
    exact ⟨p.2, List.mem_of_getElem? (mem_places hp), rfl, rfl⟩
  have hsorted : (g.finished.map Executed.index ++ g.group.map Prod.fst).Pairwise (· < ·) := by
    have := List.pairwise_lt_range (n := requests.length)
    rw [← h.order] at this
    exact (List.pairwise_append.1 this).1
  refine ⟨⟨?_, fun p hp => h.source p (List.mem_append_right _ hp), fun x hx => ?_, fun x hx y hy hxy hc => ?_,
    .nil, ⟨separated_nil, separated_nil⟩, by simp⟩, rfl⟩
  · rw [List.map_append, hindex, List.map_nil, List.append_nil]
    exact h.order
  · rcases List.mem_append.1 hx with hx | hx
    · exact h.same x hx
    · obtain ⟨p, hp, hi, hr⟩ := hfrom x hx
      rw [hi, hr]
      exact ⟨p.2, h.source p (List.mem_append_left _ hp), rfl, (afterDependencies_arrival _ _).1⟩
  · rcases List.mem_append.1 hy with hy | hy
    · rcases List.mem_append.1 hx with hx | hx
      · exact h.ordered x hx y hy hxy hc
      · -- a group's requests come after all that is finished
        obtain ⟨p, hp, hi, -⟩ := hfrom x hx
        have := (List.pairwise_append.1 hsorted).2.2 y.index (List.mem_map_of_mem hy) p.1 (List.mem_map_of_mem hp)
        omega
    · obtain ⟨q, hq, hj, hrq⟩ := hfrom y hy
      rw [hrq]
      rcases List.mem_append.1 hx with hx | hx
      · refine (afterDependencies_arrival q.2 g.finished).2 x hx ?_
        rw [hrq] at hc
        exact hc
      · obtain ⟨p, hp, hi, hrp⟩ := hfrom x hx
        rw [hrp, hrq] at hc
        have hsymm : Std.Symm fun p q : ℕ × AccessRequest => ¬p.2.Conflicts q.2 :=
          ⟨fun a b hab hba => hab ((AccessRequest.conflicts_comm _ _).1 hba)⟩
        refine absurd hc (h.independent.forall hp hq ?_)
        rintro rfl
        omega

theorem Grouped.enter {p : ℕ × AccessRequest} (h : Grouped requests anyWrite g (p :: rest))
    (hfree : ∀ q ∈ g.group, ¬q.2.Conflicts p.2) : Grouped requests anyWrite (g.enter anyWrite p) rest := by
  obtain ⟨hindependent, hseparated, hheld⟩ := h.formed.enter hfree
  refine { h with order := ?_, source := ?_, independent := hindependent, separated := hseparated, held := hheld }
  · simpa [Grouping.enter] using h.order
  · simpa [Grouping.enter] using h.source

theorem Grouped.loop (hnone : anyWrite = false → ∀ r ∈ requests, r.operation ≠ .write) :
    ∀ {rest : List (ℕ × AccessRequest)} {g : Grouping}, Grouped requests anyWrite g rest →
      Returns (groupLoop core anyWrite rest g) fun g' => Grouped requests anyWrite g' [] ∧ g'.group = []
  | [], _, h => h.run
  | p :: rest, g, h => by
    have hgroup : Returns (settle core anyWrite p.2 g) fun g' =>
        Grouped requests anyWrite g' (p :: rest) ∧ ∀ q ∈ g'.group, ¬q.2.Conflicts p.2 := by
      refine Returns.ite (fun _ => h.run.mono fun g' hg' => ⟨hg'.1, by simp [hg'.2]⟩) fun hgo => Returns.pure ⟨h, ?_⟩
      refine h.formed.free hgo fun hany q hq ⟨_, hw⟩ => ?_
      exact hw.elim (hnone hany _ (List.mem_of_getElem? (h.source q (by simp [hq]))))
        (hnone hany _ (List.mem_of_getElem? (h.source p (by simp))))
    exact hgroup.bind fun g' hg' => Grouped.loop hnone (hg'.1.enter hg'.2)

/-- **FR-FCFS executes every request once, and conflicting ones in their
order.** -/
theorem submitFrFcfs_orderly (requests : List AccessRequest) : Returns (submitFrFcfs core requests) (Orderly requests) := by
  have hstart : ∀ anyWrite, Grouped requests anyWrite ⟨[], [], [], []⟩ (places requests) := fun anyWrite =>
    ⟨by simpa using map_fst_places requests, fun p hp => mem_places (by simpa using hp), by simp, by simp, .nil,
      ⟨separated_nil, separated_nil⟩, by simp⟩
  refine (Grouped.loop (fun hnone r hr hw => ?_) (hstart _)).bind fun g hg => Returns.pure ?_
  · rw [List.any_eq_false] at hnone
    exact hnone r hr (decide_eq_true hw)
  · have horder := hg.1.order
    rw [hg.2, List.map_nil, List.append_nil, List.append_nil] at horder
    exact ⟨List.Perm.of_eq horder, hg.1.same, hg.1.ordered⟩

end HeteroSim.Task
