/-
A request's buffers are released once, by the last request that holds them,
and what is due is reclaimed whatever the order of the aliases. A key no
allocator takes is met outside the guard of the release, and stops the loop.
-/
import HeteroSim.Kernel.Holders
import HeteroSim.Kernel.Reclaim

namespace HeteroSim.Kernel

open Allocator (AllocatorState PhysicalAllocation Names)

variable {ρ : Type} (discard : BufferKey → Option PhysicalAllocation → WithTop ℚ → ρ → ρ) (arrival : WithTop ℚ)
  {s s' : BufferState ρ}

def AllocatorsOk (s : BufferState ρ) : Prop := ∀ owner a, s.allocators.get? owner = some a → LiveAllocator a

/-! ## Reclaiming -/

theorem Progress.start (ha : AllocatorsOk s) (due : Finset BufferKey) : Progress s due due s where
  sub := Finset.Subset.refl _
  same := ⟨rfl, rfl, rfl, rfl⟩
  owners _ := Iff.rfl
  live owner a h := ⟨ha owner a h, a, h, fun _ => .inl rfl⟩
  done _ hk hn := absurd hk hn
  rest _ _ := rfl

/-- What hangs on a slot still does, as far as it is still live. -/
theorem Emptied.names {due : Finset BufferKey} {owner : String} {a₀ a : AllocatorState} (h : Emptied due owner a₀ a)
    {j k : Allocator.Key} (hjk : Names a.allocations.get? j k) : Names a₀.allocations.get? j k := by
  obtain ⟨p, hp, hn⟩ := hjk
  rcases h j with hsame | ⟨hnone, -⟩
  · exact ⟨p, hsame ▸ hp, hn⟩
  · rw [hnone] at hp
    cases hp

/-- **What is left when the passes end is below an alias that is not due.**
Of the keys left whose aliases are all due take one of the greatest rank:
what hangs on it is due and still live, so it is left too, and ranks above. -/
theorem Progress.ended {due final : Finset BufferKey} (h : Progress s due final s') (ha : AllocatorsOk s)
    (hstuck : ∀ k ∈ final, Blocked s' k) {k : BufferKey} {a : AllocatorState}
    (howner : s.allocators.get? k.owner = some a)
    (hall : ∀ j, Relation.TransGen (Names a.allocations.get?) j k.slot → ∃ d ∈ due, d.owner = k.owner ∧ d.slot = j) :
    k ∉ final := by
  intro hleft
  obtain ⟨cfg, hreach⟩ := ha _ _ howner
  obtain ⟨rank, hrank⟩ := (Allocator.reachable_aliases hreach).live.acyclic
  let clear : Set BufferKey := {d | d ∈ final ∧ d.owner = k.owner ∧
    ∀ j, Relation.TransGen (Names a.allocations.get?) j d.slot → ∃ e ∈ due, e.owner = k.owner ∧ e.slot = j}
  have hfinite : clear.Finite := final.finite_toSet.subset fun d hd => hd.1
  obtain ⟨d, ⟨hd, hdo, hdall⟩, hmost⟩ := Set.exists_max_image clear (fun d => rank d.slot) hfinite ⟨k, hleft, rfl, hall⟩
  obtain ⟨b, j, hb, hnames⟩ := hstuck d hd
  rw [hdo] at hb
  obtain ⟨-, a₀, ha₀, hemptied⟩ := h.live _ _ hb
  obtain rfl := Option.some.inj (howner.symm.trans ha₀)
  have hlink := hemptied.names hnames
  obtain ⟨e, he, heo, rfl⟩ := hdall j (.single hlink)
  have hefinal : e ∈ final := by
    by_contra hout
    obtain ⟨p, hp, -⟩ := hnames
    rw [(h.done e he hout).2 b (heo ▸ hb)] at hp
    cases hp
  have hle := hmost e ⟨hefinal, heo, fun i hi => hdall i (hi.tail hlink)⟩
  exact absurd (hrank _ _ hlink) (not_lt.2 hle)

/-- What the loop leaves alone even where it raises. -/
structure Frame (s s' : BufferState ρ) : Prop where
  same : SameHolds s s'
  owners : ∀ owner, s'.allocators.get? owner = none ↔ s.allocators.get? owner = none
  live : AllocatorsOk s → AllocatorsOk s'

theorem Frame.refl (s : BufferState ρ) : Frame s s := ⟨⟨rfl, rfl, rfl, rfl⟩, fun _ => Iff.rfl, id⟩

theorem release_live {a a' : AllocatorState} (ha : LiveAllocator a) {bufferId : String} {generation : Int}
    (h : Allocator.release bufferId generation a = .ok a') : LiveAllocator a' := by
  obtain ⟨cfg, hreach⟩ := ha
  exact ⟨cfg, hreach.tail (.release _ _ h)⟩

theorem keeps_reclaimKey (k : BufferKey) : Keeps (Frame s) (reclaimKey discard arrival k) := by
  refine Keeps.get_bind fun t h => ?_
  obtain ⟨hbuffers, hholders, huses, hmakespan⟩ := h.same
  cases howner : t.allocators.get? k.owner with
  | none => exact ⟨⟨hbuffers, hholders, huses, hmakespan⟩, h.owners, h.live⟩
  | some a =>
    rw [wp_bind, wp_raise]
    refine ⟨fun allocation _ => ?_, fun _ _ => h⟩
    cases hrel : Allocator.release k.bufferId k.generation a with
    | error e => exact h
    | ok a' =>
      refine ⟨⟨hbuffers, hholders, huses, hmakespan⟩, fun owner => ?_, fun ha owner b hb => ?_⟩
      · rw [Dict.get?_insert, ← h.owners]
        split
        · next ho => rw [ho, howner]; simp
        · rfl
      · rw [Dict.get?_insert] at hb
        split at hb
        · obtain rfl := Option.some.inj hb
          exact release_live (h.live ha _ a howner) hrel
        · exact h.live ha owner b hb

theorem keeps_reclaimPass : ∀ keys : List BufferKey, Keeps (Frame s) (reclaimPass discard arrival keys)
  | [] => Keeps.pure _
  | k :: keys => (keeps_reclaimKey discard arrival k).bind fun _ =>
    (keeps_reclaimPass keys).bind fun _ => Keeps.pure _

theorem keeps_reclaimLoop : ∀ (fuel : ℕ) (left : Finset BufferKey),
    Keeps (Frame s) (reclaimLoop discard arrival fuel left)
  | 0, _ => Keeps.pure _
  | fuel + 1, _ => Keeps.ite (fun _ => Keeps.pure _) fun _ => (keeps_reclaimPass discard arrival _).bind fun _ =>
      Keeps.ite (fun _ => Keeps.pure _) fun _ => keeps_reclaimLoop fuel _

theorem frame_reclaim (s : BufferState ρ) : Frame s (after (reclaimPhysicalAllocations discard arrival) s) :=
  Keeps.after (Keeps.get_bind fun t h => keeps_reclaimLoop discard arrival _ (duePending t arrival) t h) (Frame.refl s)

/-- A key its allocator does not take. -/
def Refused (s : BufferState ρ) (k : BufferKey) : Prop := s.allocators.get? k.owner ≠ none ∧ ¬k.Named

theorem after_ok {ε σ α : Type} {m : EStateM ε σ α} {t u : σ} {a : α} (h : m t = .ok a u) : after m t = u := by
  rw [after, h]

theorem after_error {ε σ α : Type} {m : EStateM ε σ α} {t u : σ} {e : ε} (h : m t = .error e u) : after m t = u := by
  rw [after, h]

/-! ## Releasing -/

/-- No other request holds the key. -/
def LastHeld (s : BufferState ρ) (request : String) (k : BufferKey) : Prop :=
  k ∈ held s request ∧ ∀ r, r ≠ request → k ∉ held s r

/-- The request's holds are gone, and what it held last is queued. -/
structure Queued (s : BufferState ρ) (request : String) (q : BufferState ρ) : Prop where
  buffers : q.requestPhysicalBuffers = s.requestPhysicalBuffers.erase request
  counted : Counted q
  queued : ∀ k, LastHeld s request k → q.pendingPhysicalReleases.get? k = some s.makespanNs
  rest : ∀ k, ¬LastHeld s request k → q.pendingPhysicalReleases.get? k = s.pendingPhysicalReleases.get? k
  uses : q.physicalAllocationUses = s.physicalAllocationUses
  allocators : q.allocators = s.allocators
  makespan : q.makespanNs = s.makespanNs

/-- A key the request holds last has a task to come. -/
def InUse (s : BufferState ρ) (request : String) : Prop :=
  ∃ k, LastHeld s request k ∧ (s.physicalAllocationUses k).getD 0 ≠ 0

theorem mem_lastHeld {request : String} {order : List BufferKey} (ho : Lists s request order) {k : BufferKey} :
    k ∈ lastHeld s request order ↔ LastHeld s request k := by
  have hothers : others s request k = ∅ ↔ ∀ r, r ≠ request → k ∉ held s r := by
    rw [Finset.eq_empty_iff_forall_notMem]
    refine forall_congr' fun r => ?_
    rw [others, Finset.mem_erase, mem_holding, not_and]
  rw [lastHeld, List.mem_filter, decide_eq_true_eq, hothers, ← List.mem_toFinset, ho.2, LastHeld]

theorem get?_foldl_queue (t : ℚ) : ∀ (keys : List BufferKey) (d : Dict BufferKey ℚ) (k : BufferKey),
    (keys.foldl (fun d key => d.insert key t) d).get? k = if k ∈ keys then some t else d.get? k
  | [], _, _ => by simp
  | key :: keys, d, k => by
    rw [List.foldl_cons, get?_foldl_queue t keys, Dict.get?_insert]
    by_cases hk : k ∈ keys
    · rw [if_pos hk, if_pos (List.mem_cons_of_mem _ hk)]
    · by_cases he : k = key
      · rw [if_neg hk, if_pos he, if_pos (he ▸ List.mem_cons_self)]
      · rw [if_neg hk, if_neg he, if_neg (by simp [hk, he])]

/-- The three ways of a release: nothing held, a refusal that changes
nothing, or the keys held last in the queue and a reclaim. -/
theorem release_cases (h : Counted s) {request : String} {order : List BufferKey} (ho : Lists s request order) :
    (held s request = ∅ ∧ releaseRequestPhysicalAllocations discard request order s = .ok true s) ∨
      (held s request ≠ ∅ ∧ InUse s request ∧ ∃ e, releaseRequestPhysicalAllocations discard request order s = .error e s) ∨
        held s request ≠ ∅ ∧ ¬InUse s request ∧ ∃ q, Queued s request q ∧
          releaseRequestPhysicalAllocations discard request order s = reclaimPhysicalAllocations discard q.makespanNs q := by
  rw [releaseRequestPhysicalAllocations, get_then]
  cases hget : s.requestPhysicalBuffers.get? request with
  | none => exact .inl ⟨by rw [held, hget, Option.getD_none], rfl⟩
  | some keys =>
    have hheld : held s request = keys := by rw [held, hget, Option.getD_some]
    by_cases hempty : keys = ∅
    · refine .inl ⟨hheld.trans hempty, ?_⟩
      simp only [if_pos hempty]
      rfl
    · simp only [if_neg hempty]
      rw [ok_bind (raise_ok (h.releasable fun k hk => by rw [← ho.2]; exact List.mem_toFinset.2 hk))]
      have hinUse : (∃ k ∈ lastHeld s request order, (s.physicalAllocationUses k).getD 0 ≠ 0) ↔ InUse s request :=
        exists_congr fun k => and_congr_left fun _ => mem_lastHeld ho
      by_cases huse : InUse s request
      · refine .inr (.inl ⟨hheld ▸ hempty, huse, _, error_bind (raise_error (if_pos (hinUse.2 huse)))⟩)
      · refine .inr (.inr ⟨hheld ▸ hempty, huse, ?_⟩)
        obtain ⟨orphaned, d, hdrop, hcounted⟩ := h.drop ho
        rw [ok_bind (raise_ok ((refuse_ok (u := ())).2 (mt hinUse.1 huse))), ok_bind hdrop, modify_then]
        refine ⟨queueReleases (lastHeld s request order) { s with
          requestPhysicalBuffers := s.requestPhysicalBuffers.erase request, requestBufferHolders := d },
          ⟨rfl, hcounted, fun k hk => ?_, fun k hk => ?_, rfl, rfl, rfl⟩, rfl⟩
        · rw [queueReleases, get?_foldl_queue, if_pos ((mem_lastHeld ho).2 hk)]
        · rw [queueReleases, get?_foldl_queue, if_neg (mt (mem_lastHeld ho).1 hk)]

/-- The keys a release would queue or find due are ones their allocators
take. -/
def Takes (s : BufferState ρ) (request : String) : Prop :=
  ∀ k, LastHeld s request k ∨ k ∈ duePending s s.makespanNs → (s.allocators.get? k.owner).isSome → k.Named

/-- States that registrations, forgets, releases and reclaims lead to, the
ones that raise among them, with anything else between that leaves the holds
and the counts alone. -/
inductive BufferRun : BufferState ρ → Prop
  | init {s : BufferState ρ} (hb : s.requestPhysicalBuffers = .empty) (hh : s.requestBufferHolders = .empty)
    (ha : AllocatorsOk s) : BufferRun s
  | register {s : BufferState ρ} (h : BufferRun s) (request : String) (keys : List BufferKey) :
    BufferRun (registerRequestPhysicalBuffers request keys s)
  | forget {s : BufferState ρ} (h : BufferRun s) (request : String) (order : List BufferKey) (ho : Lists s request order) :
    BufferRun (after (forgetRequestPhysicalBuffers request order) s)
  | release {s : BufferState ρ} (h : BufferRun s) (request : String) (order : List BufferKey) (ho : Lists s request order) :
    BufferRun (after (releaseRequestPhysicalAllocations discard request order) s)
  | reclaim {s : BufferState ρ} (h : BufferRun s) (arrival : WithTop ℚ) :
    BufferRun (after (reclaimPhysicalAllocations discard arrival) s)
  | elsewhere {s s' : BufferState ρ} (h : BufferRun s) (hb : s'.requestPhysicalBuffers = s.requestPhysicalBuffers)
    (hh : s'.requestBufferHolders = s.requestBufferHolders) (ha : AllocatorsOk s') : BufferRun s'

theorem Counted.congr (h : Counted s) (hb : s'.requestPhysicalBuffers = s.requestPhysicalBuffers)
    (hh : s'.requestBufferHolders = s.requestBufferHolders) : Counted s' := by
  have hheld : ∀ r, held s' r = held s r := fun r => by rw [held, held, hb]
  intro key
  rw [hh, h key]
  refine congrArg (fun c : Finset String => counted c.card) ?_
  ext r
  rw [mem_holding, mem_holding, hheld]

theorem counted_init (hb : s.requestPhysicalBuffers = .empty) (hh : s.requestBufferHolders = .empty) : Counted s := by
  intro key
  have hnone : holding s key = ∅ := by
    rw [Finset.eq_empty_iff_forall_notMem]
    intro r hr
    rw [mem_holding, held, hb, Dict.get?_empty, Option.getD_none] at hr
    exact absurd hr (Finset.notMem_empty key)
  rw [hh, hnone, Dict.get?_empty, Finset.card_empty, counted_zero]

theorem counted_reclaim (h : Counted s) : Counted (after (reclaimPhysicalAllocations discard arrival) s) :=
  h.congr (frame_reclaim discard arrival s).same.buffers (frame_reclaim discard arrival s).same.holders

theorem BufferRun.sound (h : BufferRun discard s) : Counted s ∧ AllocatorsOk s := by
  induction h with
  | init hb hh ha => exact ⟨counted_init hb hh, ha⟩
  | register _ request keys ih =>
    refine ⟨ih.1.register request keys, ?_⟩
    unfold registerRequestPhysicalBuffers
    split
    · exact ih.2
    · exact ih.2
  | forget _ request order ho ih =>
    obtain ⟨orphaned, d, hrun, hcounted⟩ := ih.1.drop ho
    rw [after_ok (show forgetRequestPhysicalBuffers request order _ = _ from ok_bind hrun)]
    exact ⟨hcounted, ih.2⟩
  | @release s _ request order ho ih =>
    rcases release_cases discard ih.1 ho with ⟨-, hrun⟩ | ⟨-, -, e, hrun⟩ | ⟨-, -, q, hq, hrun⟩
    · rw [after_ok hrun]
      exact ih
    · rw [after_error hrun]
      exact ih
    · have hsame : after (releaseRequestPhysicalAllocations discard request order) s =
          after (reclaimPhysicalAllocations discard q.makespanNs) q := by rw [after, hrun, after]
      rw [hsame]
      refine ⟨counted_reclaim discard _ hq.counted, (frame_reclaim discard _ q).live fun owner a hget => ih.2 owner a ?_⟩
      rwa [← hq.allocators]
  | reclaim _ arrival ih => exact ⟨counted_reclaim discard arrival ih.1, (frame_reclaim discard arrival _).live ih.2⟩
  | elsewhere _ hb hh ha ih => exact ⟨ih.1.congr hb hh, ha⟩

end HeteroSim.Kernel
