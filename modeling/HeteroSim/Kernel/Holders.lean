/-
Buffers that requests hold (`event_kernel.py`). A request's set of keys and
the number of holders of each key are kept side by side; a release gives up
the request's keys, queues those no other request holds, and reclaims what
is due: passes over the queue that defer an extent with a live alias. A set
is walked in an order the caller gives; what goes with a freed extent (its
staged pages, its cache lines) is a parameter.
-/
import HeteroSim.Allocator.Aliases
import HeteroSim.Raising

namespace HeteroSim.Kernel

open Allocator (AllocatorState PhysicalAllocation)

/-- `(owner, buffer_id, generation)`, in the order of tuples. -/
structure BufferKey where
  owner : String
  bufferId : String
  generation : Int

def BufferKey.lex (k : BufferKey) : String ×ₗ String ×ₗ Int := toLex (k.owner, toLex (k.bufferId, k.generation))

theorem BufferKey.lex_injective : Function.Injective BufferKey.lex := fun j k h => by
  cases j
  cases k
  simpa [BufferKey.lex] using h

instance : LinearOrder BufferKey := LinearOrder.lift' BufferKey.lex BufferKey.lex_injective

/-- What the calls read and write; `rest` is the staged pages and caches. -/
structure BufferState (ρ : Type) where
  requestPhysicalBuffers : Dict String (Finset BufferKey)
  requestBufferHolders : Dict BufferKey ℕ
  physicalAllocationUses : BufferKey → Option Int
  pendingPhysicalReleases : Dict BufferKey ℚ
  allocators : Dict String AllocatorState
  makespanNs : ℚ
  rest : ρ

variable {ρ : Type}

/-! ## Holding -/

/-- The loop body of `register_request_physical_buffers`. -/
def addHold (r : Finset BufferKey × Dict BufferKey ℕ) (key : BufferKey) : Finset BufferKey × Dict BufferKey ℕ :=
  if key ∈ r.1 then r else (insert key r.1, r.2.insert key ((r.2.get? key).getD 0 + 1))

/-- `register_request_physical_buffers` -/
def registerRequestPhysicalBuffers (request : String) (keys : List BufferKey) (s : BufferState ρ) : BufferState ρ :=
  if keys = [] then s
  else
    let r := keys.foldl addHold ((s.requestPhysicalBuffers.get? request).getD ∅, s.requestBufferHolders)
    { s with
      requestPhysicalBuffers := s.requestPhysicalBuffers.insert request r.1
      requestBufferHolders := r.2 }

def holdersOf (s : BufferState ρ) (key : BufferKey) : Except String ℕ :=
  match s.requestBufferHolders.get? key with
  | some count => .ok count
  | none => .error "KeyError"

/-- The loop of `_drop_request_buffer_holds`; it returns what no request
holds now. -/
def dropHolds : List BufferKey → EStateM String (BufferState ρ) (Finset BufferKey)
  | [] => pure ∅
  | key :: keys => do
    let s ← get
    let count ← raise (holdersOf s key)
    if 0 < count - 1 then
      set { s with requestBufferHolders := s.requestBufferHolders.insert key (count - 1) }
      dropHolds keys
    else
      set { s with requestBufferHolders := s.requestBufferHolders.erase key }
      let orphaned ← dropHolds keys
      pure (insert key orphaned)

/-- `_drop_request_buffer_holds`; `order` lists the request's set. -/
def dropRequestBufferHolds (request : String) (order : List BufferKey) :
    EStateM String (BufferState ρ) (Finset BufferKey) := do
  let s ← get
  match s.requestPhysicalBuffers.get? request with
  | none => pure ∅
  | some _ =>
    set { s with requestPhysicalBuffers := s.requestPhysicalBuffers.erase request }
    dropHolds order

/-- `forget_request_physical_buffers` -/
def forgetRequestPhysicalBuffers (request : String) (order : List BufferKey) : EStateM String (BufferState ρ) Unit := do
  let _ ← dropRequestBufferHolds request order
  pure ()

/-! ## Reclaiming -/

variable (discard : BufferKey → Option PhysicalAllocation → WithTop ℚ → ρ → ρ)

/-- The loop body of `_reclaim_physical_allocations`; it returns whether the
key is deferred. -/
def reclaimKey (arrival : WithTop ℚ) (key : BufferKey) : EStateM String (BufferState ρ) Bool := do
  let s ← get
  match s.allocators.get? key.owner with
  | none =>
    set { s with pendingPhysicalReleases := s.pendingPhysicalReleases.erase key }
    pure false
  | some allocator =>
    let allocation ← raise (Allocator.getAllocation allocator key.bufferId key.generation)
    match Allocator.release key.bufferId key.generation allocator with
    | .error _ => pure true
    | .ok allocator =>
      set { s with
        allocators := s.allocators.insert key.owner allocator
        pendingPhysicalReleases := s.pendingPhysicalReleases.erase key
        rest := discard key allocation arrival s.rest }
      pure false

/-- One pass, and what it deferred. -/
def reclaimPass (arrival : WithTop ℚ) : List BufferKey → EStateM String (BufferState ρ) (Finset BufferKey)
  | [] => pure ∅
  | key :: keys => do
    let isDeferred ← reclaimKey discard arrival key
    let deferred ← reclaimPass arrival keys
    pure (if isDeferred then insert key deferred else deferred)

/-- The passes, in at most `fuel` turns; it returns whether they ended. -/
def reclaimLoop (arrival : WithTop ℚ) : ℕ → Finset BufferKey → EStateM String (BufferState ρ) Bool
  | 0, _ => pure false
  | fuel + 1, pending => do
    if pending = ∅ then pure true
    else
      let deferred ← reclaimPass discard arrival (pending.sort (· ≤ ·))
      if deferred = pending then pure true else reclaimLoop arrival fuel deferred

/-- The keys whose completion is not after `arrival`. -/
def duePending (s : BufferState ρ) (arrival : WithTop ℚ) : Finset BufferKey :=
  s.pendingPhysicalReleases.keys.toFinset.filter fun key =>
    ∃ completion ∈ s.pendingPhysicalReleases.get? key, (completion : WithTop ℚ) ≤ arrival

/-- `_reclaim_physical_allocations` -/
def reclaimPhysicalAllocations (arrival : WithTop ℚ) : EStateM String (BufferState ρ) Bool := do
  let s ← get
  reclaimLoop discard arrival ((duePending s arrival).card + 1) (duePending s arrival)

/-! ## Releasing -/

/-- The keys of the request's set with one holder. -/
def releasableKeys (s : BufferState ρ) : List BufferKey → Except String (List BufferKey)
  | [] => .ok []
  | key :: keys => do
    let count ← holdersOf s key
    let releasable ← releasableKeys s keys
    pure (if count ≤ 1 then key :: releasable else releasable)

/-- The queue, with the keys put in at the makespan. -/
def queueReleases (releasable : List BufferKey) (s : BufferState ρ) : BufferState ρ :=
  { s with
    pendingPhysicalReleases :=
      releasable.foldl (fun d key => d.insert key s.makespanNs) s.pendingPhysicalReleases }

/-- `release_request_physical_allocations`; `order` lists the request's set. -/
def releaseRequestPhysicalAllocations (request : String) (order : List BufferKey) :
    EStateM String (BufferState ρ) Bool := do
  let s ← get
  match s.requestPhysicalBuffers.get? request with
  | none => pure true
  | some keys =>
    if keys = ∅ then pure true
    else
      let releasable ← raise (releasableKeys s order)
      raise (refuse (∃ key ∈ releasable, (s.physicalAllocationUses key).getD 0 ≠ 0)
        "cannot release request physical buffers before their tasks complete")
      let _ ← dropRequestBufferHolds request order
      modify (queueReleases releasable)
      reclaimPhysicalAllocations discard s.makespanNs

end HeteroSim.Kernel

/-!
The number beside each key is the number of requests that hold it, and a key
no request holds has none. Seen from one request the number is that of the
others, and one more where the request holds the key too, which is what the
loops over its keys count up and down.
-/

namespace HeteroSim.Kernel

variable {ρ : Type} {s s' : BufferState ρ}

/-- The keys the request holds. -/
def held (s : BufferState ρ) (request : String) : Finset BufferKey := (s.requestPhysicalBuffers.get? request).getD ∅

/-- The requests that hold the key. -/
def holding (s : BufferState ρ) (key : BufferKey) : Finset String :=
  s.requestPhysicalBuffers.keys.toFinset.filter fun request => key ∈ held s request

theorem mem_holding {request : String} {key : BufferKey} : request ∈ holding s key ↔ key ∈ held s request := by
  rw [holding, Finset.mem_filter, List.mem_toFinset, and_iff_right_iff_imp]
  intro h
  by_contra hn
  rw [held, Dict.get?_eq_none.2 hn] at h
  exact absurd h (Finset.notMem_empty _)

/-- A count as the dictionary has it: none for zero. -/
def counted (n : ℕ) : Option ℕ := if n = 0 then none else some n

@[simp] theorem counted_zero : counted 0 = none := rfl

@[simp] theorem counted_succ (n : ℕ) : counted (n + 1) = some (n + 1) := rfl

@[simp] theorem counted_getD (n : ℕ) : (counted n).getD 0 = n := by
  cases n <;> rfl

/-- The other requests that hold the key. -/
def others (s : BufferState ρ) (request : String) (key : BufferKey) : Finset String := (holding s key).erase request

/-- The dictionary counts a request's keys on top of the others' holds. -/
def CountsWith (others : BufferKey → ℕ) (owned : Finset BufferKey) (d : Dict BufferKey ℕ) : Prop :=
  ∀ key, d.get? key = counted (others key + if key ∈ owned then 1 else 0)

/-- Each count is the number of holders. -/
def Counted (s : BufferState ρ) : Prop := ∀ key, s.requestBufferHolders.get? key = counted (holding s key).card

/-- The count, seen from one request. -/
theorem counted_iff (request : String) : Counted s ↔
    CountsWith (fun key => (others s request key).card) (held s request) s.requestBufferHolders := by
  have hcard : ∀ key, (holding s key).card = (others s request key).card + if key ∈ held s request then 1 else 0 := by
    intro key
    by_cases hk : key ∈ held s request
    · rw [if_pos hk, others, Finset.card_erase_add_one (mem_holding.2 hk)]
    · rw [if_neg hk, others, Finset.erase_eq_of_notMem fun h => hk (mem_holding.1 h), Nat.add_zero]
  simp only [Counted, CountsWith, hcard]

/-! ## Registering -/

theorem countsWith_addHold {o : BufferKey → ℕ} {r : Finset BufferKey × Dict BufferKey ℕ} (h : CountsWith o r.1 r.2)
    (key : BufferKey) : CountsWith o (addHold r key).1 (addHold r key).2 := by
  unfold addHold
  split
  · exact h
  · next hnew =>
    intro k
    rw [Dict.get?_insert]
    by_cases hk : k = key
    · subst hk
      rw [if_pos rfl, h k, if_neg hnew, if_pos (Finset.mem_insert_self _ _), Nat.add_zero, counted_getD, counted_succ]
    · rw [if_neg hk, h k]
      simp only [Finset.mem_insert, hk, false_or]

theorem countsWith_foldl {o : BufferKey → ℕ} : ∀ (keys : List BufferKey) {r : Finset BufferKey × Dict BufferKey ℕ},
    CountsWith o r.1 r.2 → CountsWith o (keys.foldl addHold r).1 (keys.foldl addHold r).2
  | [], _, h => h
  | key :: keys, _, h => countsWith_foldl keys (countsWith_addHold h key)

theorem held_insert (request r : String) {keys : Finset BufferKey} (t : BufferState ρ)
    (ht : t.requestPhysicalBuffers = s.requestPhysicalBuffers.insert request keys) :
    held t r = if r = request then keys else held s r := by
  simp only [held, ht, Dict.get?_insert]
  split
  · rfl
  · rfl

theorem held_erase (request r : String) (t : BufferState ρ)
    (ht : t.requestPhysicalBuffers = s.requestPhysicalBuffers.erase request) :
    held t r = if r = request then ∅ else held s r := by
  simp only [held, ht, Dict.get?_erase]
  split
  · rfl
  · rfl

/-- What changes for one request changes nothing for the others. -/
theorem others_congr {request : String} (h : ∀ r, r ≠ request → held s' r = held s r) (key : BufferKey) :
    others s' request key = others s request key := by
  ext r
  rw [others, others, Finset.mem_erase, Finset.mem_erase, mem_holding, mem_holding]
  exact and_congr_right fun hr => by rw [h r hr]

/-- A change for one request alone, counted on top of the others. -/
theorem counted_of {request : String} (hrest : ∀ r, r ≠ request → held s' r = held s r)
    (h : CountsWith (fun key => (others s request key).card) (held s' request) s'.requestBufferHolders) : Counted s' := by
  refine (counted_iff request).2 fun key => ?_
  simp only [others_congr hrest key]
  exact h key

theorem Counted.register (h : Counted s) (request : String) (keys : List BufferKey) :
    Counted (registerRequestPhysicalBuffers request keys s) := by
  unfold registerRequestPhysicalBuffers
  split
  · exact h
  · have hfold := countsWith_foldl (r := (held s request, s.requestBufferHolders)) keys ((counted_iff request).1 h)
    refine counted_of (fun r hr => (held_insert request r _ rfl).trans (if_neg hr)) ?_
    rw [held_insert request request _ rfl, if_pos rfl]
    exact hfold

/-- The loop counts each key down, and raises nothing. -/
theorem dropHolds_ok {o : BufferKey → ℕ} : ∀ {order : List BufferKey} {s : BufferState ρ}, order.Nodup →
    CountsWith o order.toFinset s.requestBufferHolders → ∃ orphaned d, dropHolds order s = .ok orphaned
      { s with requestBufferHolders := d } ∧ CountsWith o ∅ d
  | [], s, _, h => ⟨∅, s.requestBufferHolders, rfl, h⟩
  | key :: order, s, hnodup, h => by
    obtain ⟨hnew, hnodup⟩ := List.nodup_cons.1 hnodup
    have hget : s.requestBufferHolders.get? key = some (o key + 1) := by
      rw [h key, if_pos (by simp), counted_succ]
    have hstep : ∀ d : Dict BufferKey ℕ, d.get? key = counted (o key) →
        (∀ k, k ≠ key → d.get? k = s.requestBufferHolders.get? k) → CountsWith o order.toFinset d := by
      intro d hkey hrest k
      by_cases hk : k = key
      · subst hk
        rw [hkey, if_neg (by simpa using hnew), Nat.add_zero]
      · rw [hrest k hk, h k]
        simp [hk]
    have hcount : holdersOf s key = .ok (o key + 1) := by rw [holdersOf, hget]
    rw [dropHolds, get_then, ok_bind (raise_ok hcount)]
    by_cases hpos : 0 < o key + 1 - 1
    · have hrec : CountsWith o order.toFinset (s.requestBufferHolders.insert key (o key + 1 - 1)) := by
        refine hstep _ ?_ fun k hk => Dict.get?_insert_of_ne _ _ hk
        rw [Dict.get?_insert_self, Nat.add_sub_cancel, counted, if_neg (by omega)]
      rw [if_pos hpos, set_then]
      exact dropHolds_ok hnodup hrec
    · have hrec : CountsWith o order.toFinset (s.requestBufferHolders.erase key) := by
        refine hstep _ ?_ fun k hk => Dict.get?_erase_of_ne _ hk
        rw [Dict.get?_erase_self, counted, if_pos (by omega)]
      rw [if_neg hpos, set_then]
      obtain ⟨orphaned, d, hrun, hd⟩ := dropHolds_ok
        (s := { s with requestBufferHolders := s.requestBufferHolders.erase key }) hnodup hrec
      rw [ok_bind hrun]
      exact ⟨insert key orphaned, d, rfl, hd⟩

/-- `order` lists the request's set. -/
def Lists (s : BufferState ρ) (request : String) (order : List BufferKey) : Prop :=
  order.Nodup ∧ order.toFinset = held s request

/-- A drop raises nothing, takes the request's holds away, and keeps the
counts. -/
theorem Counted.drop (h : Counted s) {request : String} {order : List BufferKey} (ho : Lists s request order) :
    ∃ orphaned d, dropRequestBufferHolds request order s = .ok orphaned { s with
        requestPhysicalBuffers := s.requestPhysicalBuffers.erase request, requestBufferHolders := d } ∧
      Counted { s with requestPhysicalBuffers := s.requestPhysicalBuffers.erase request, requestBufferHolders := d } := by
  have hwith := (counted_iff request).1 h
  have hcounted : ∀ d, CountsWith (fun key => (others s request key).card) ∅ d →
      Counted { s with requestPhysicalBuffers := s.requestPhysicalBuffers.erase request, requestBufferHolders := d } := by
    intro d hd
    refine counted_of (fun r hr => (held_erase request r _ rfl).trans (if_neg hr)) ?_
    rw [held_erase request request _ rfl, if_pos rfl]
    exact hd
  rw [dropRequestBufferHolds, get_then]
  cases hget : s.requestPhysicalBuffers.get? request with
  | none =>
    have hempty : held s request = ∅ := by rw [held, hget, Option.getD_none]
    have herase : s.requestPhysicalBuffers.erase request = s.requestPhysicalBuffers :=
      Dict.erase_of_not_mem (Dict.get?_eq_none.1 hget)
    rw [hempty] at hwith
    refine ⟨∅, s.requestBufferHolders, ?_, hcounted _ hwith⟩
    rw [herase]
    rfl
  | some keys =>
    rw [← ho.2] at hwith
    obtain ⟨orphaned, d, hrun, hd⟩ := dropHolds_ok
      (s := { s with requestPhysicalBuffers := s.requestPhysicalBuffers.erase request }) ho.1 hwith
    exact ⟨orphaned, d, hrun, hcounted d hd⟩

/-! ## The last holder -/

/-- The keys of `order` no other request holds. -/
def lastHeld (s : BufferState ρ) (request : String) (order : List BufferKey) : List BufferKey :=
  order.filter fun key => others s request key = ∅

theorem Counted.releasable (h : Counted s) {request : String} : ∀ {order : List BufferKey},
    (∀ key ∈ order, key ∈ held s request) → releasableKeys s order = .ok (lastHeld s request order)
  | [], _ => rfl
  | key :: order, ho => by
    obtain ⟨hkey, ho⟩ := List.forall_mem_cons.1 ho
    have hcount : holdersOf s key = .ok ((others s request key).card + 1) := by
      rw [holdersOf, (counted_iff request).1 h key, if_pos hkey, counted_succ]
    rw [releasableKeys, hcount, h.releasable ho, lastHeld, lastHeld, List.filter_cons]
    have hle : (others s request key).card + 1 ≤ 1 ↔ decide (others s request key = ∅) = true := by
      rw [decide_eq_true_eq, ← Finset.card_eq_zero]
      omega
    simp only [bind, Except.bind, pure, Except.pure, hle]

end HeteroSim.Kernel
