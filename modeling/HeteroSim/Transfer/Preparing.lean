/-
What a preparation does to the executor before it registers its plan: it
submits. Submitting changes the platform and the counters and lets the cost
ledger grow; every other part is as it was, whether the preparation returns
or raises.
-/
import HeteroSim.Transfer.Plans

namespace HeteroSim.Transfer

variable {W S : Type} {P : Platform W S} {cfg : Config} {s t : Executor W}

/-! ## What a call comes to -/

section

variable {α β : Type} {m : M W α} {f : α → M W β}

theorem bind_ok_eq {a : α} (h : m s = .ok a t) : (m >>= f) s = f a t := by
  change EStateM.bind m f s = _
  rw [EStateM.bind, h]

theorem bind_error_eq {e : Raised} (h : m s = .error e t) : (m >>= f) s = .error e t := by
  change EStateM.bind m f s = _
  rw [EStateM.bind, h]

/-- What a call that returned went through. -/
theorem bind_eq_ok {b : β} (h : (m >>= f) s = .ok b t) : ∃ a u, m s = .ok a u ∧ f a u = .ok b t := by
  cases hm : m s with
  | ok a u => exact ⟨a, u, rfl, (bind_ok_eq hm).symm.trans h⟩
  | error e u =>
    rw [bind_error_eq hm] at h
    cases h

theorem raise_eq_ok {x : Except Raised α} {a : α} (h : (raise x : M W α) s = .ok a t) : x = .ok a ∧ t = s := by
  cases x with
  | ok b =>
    cases h
    exact ⟨rfl, rfl⟩
  | error e => cases h

theorem refuse_eq_ok {c : Prop} [Decidable c] {e : Raised} {u : Unit} : refuse c e = .ok u ↔ ¬c := by
  rw [refuse]
  by_cases hc : c <;> simp [hc]

theorem get_bind_eq {f : Executor W → M W β} : (get >>= f) s = f s s := rfl

theorem raise_refuse_ok {c : Prop} [Decidable c] {e : Raised} (h : ¬c) : (raise (refuse c e) : M W Unit) s = .ok () s := by
  rw [refuse, if_neg h]
  rfl

theorem raise_refuse_error {c : Prop} [Decidable c] {e : Raised} (h : c) :
    (raise (refuse c e) : M W Unit) s = .error e s := by
  rw [refuse, if_pos h]
  rfl

end

/-! ## Submitting -/

/-- From `s` to `t` phases were submitted and nothing else was done. -/
structure OnlySubmits (cfg : Config) (s t : Executor W) : Prop where
  bindings : t.bindings = s.bindings
  events : t.events = s.events
  heap : t.heap = s.heap
  plans : t.plans = s.plans
  planId : t.nextAsyncPlanId = s.nextAsyncPlanId
  token : t.nextAsyncPhaseToken = s.nextAsyncPhaseToken
  epoch : t.asyncRestoreEpoch = s.asyncRestoreEpoch
  costs : Grown cfg.retainPhaseDetails s.costs t.costs

theorem OnlySubmits.refl (s : Executor W) : OnlySubmits cfg s s := ⟨rfl, rfl, rfl, rfl, rfl, rfl, rfl, .refl _ _⟩

/-- `m` only submits. -/
def Submits {α : Type} (cfg : Config) (m : M W α) : Prop := ∀ s, Keeps (OnlySubmits cfg s) m

namespace Submits

variable {α β : Type}

theorem pure (a : α) : Submits cfg (pure a : M W α) := fun _ => .pure a

theorem bind {m : M W α} {f : α → M W β} (hm : Submits cfg m) (hf : ∀ a, Submits cfg (f a)) : Submits cfg (m >>= f) :=
  fun s => (hm s).bind fun a => hf a s

theorem get : Submits cfg (MonadState.get : M W (Executor W)) := fun _ => .get

theorem raise (x : Except Raised α) : Submits cfg (HeteroSim.raise x : M W α) := fun _ => .raise x

theorem onWorld (m : EStateM Raised W α) : Submits cfg (onWorld m) := by
  intro s t ht
  unfold wp Transfer.onWorld
  cases m t.world with
  | ok a w => exact ⟨ht.bindings, ht.events, ht.heap, ht.plans, ht.planId, ht.token, ht.epoch, ht.costs⟩
  | error e w => exact ⟨ht.bindings, ht.events, ht.heap, ht.plans, ht.planId, ht.token, ht.epoch, ht.costs⟩

theorem counters (f : Executor W → Counters) : Submits cfg (modify fun s => { s with counters := f s } : M W PUnit) :=
  fun _ _ ht => ⟨ht.bindings, ht.events, ht.heap, ht.plans, ht.planId, ht.token, ht.epoch, ht.costs⟩

theorem ite {c : Prop} [Decidable c] {m n : M W α} (hm : Submits cfg m) (hn : Submits cfg n) :
    Submits cfg (if c then m else n) := by
  split
  · exact hm
  · exact hn

/-- What `m` leaves, returned or raised. -/
theorem after {m : M W α} (h : Submits cfg m) (s : Executor W) : OnlySubmits cfg s (HeteroSim.after m s) :=
  (h s).after (.refl s)

theorem ok {m : M W α} (h : Submits cfg m) {a : α} (hm : m s = .ok a t) : OnlySubmits cfg s t := by
  have := h.after s
  rwa [HeteroSim.after, hm] at this

theorem error {m : M W α} (h : Submits cfg m) {e : Raised} (hm : m s = .error e t) : OnlySubmits cfg s t := by
  have := h.after s
  rwa [HeteroSim.after, hm] at this

end Submits

/-! ## Each step of a preparation -/

theorem retainCostPhase_submits (phase : CostPhase) : Submits cfg (retainCostPhase cfg phase : M W Unit) :=
  fun _ _ ht => ⟨ht.bindings, ht.events, ht.heap, ht.plans, ht.planId, ht.token, ht.epoch,
    ht.costs.trans (grown_retain _ _ phase)⟩

theorem recordMemoryCost_submits (componentId : String) (service : Service) (kind : AccessKind) (bill : Bill) :
    Submits cfg (recordMemoryCost cfg componentId service kind bill : M W Unit) :=
  Submits.get.bind fun _ => retainCostPhase_submits _

theorem priceFrom_submits {componentId : String} {service : Service} {kind : AccessKind} {address size : ℕ} :
    ∀ {fuel offset : ℕ} {current : ℚ},
      Submits cfg (priceFrom P cfg componentId service kind address size fuel offset current)
  | 0, _, _ => .pure _
  | _ + 1, _, _ => by
    unfold priceFrom
    exact .ite (.pure _) ((Submits.onWorld _).bind fun bill => (recordMemoryCost_submits _ _ _ bill).bind fun _ =>
      priceFrom_submits.bind fun _ => .pure _)

theorem priceChunks_submits {componentId : String} {kind : AccessKind} {address size : ℕ} {arrivalNs : ℚ} :
    Submits cfg (priceChunks P cfg componentId kind address size arrivalNs) :=
  (Submits.raise _).bind fun _ => (Submits.raise _).bind fun _ => priceFrom_submits.bind fun _ =>
    (Submits.counters _).bind fun _ => .pure _

theorem submitLinkPhase_submits {hop : RouteHop} {size : ℕ} {arrivalNs : ℚ} :
    Submits cfg (submitLinkPhase P cfg hop size arrivalNs) :=
  (Submits.onWorld _).bind fun _ => Submits.get.bind fun _ => (retainCostPhase_submits _).bind fun _ =>
    (Submits.counters _).bind fun _ => .pure _

theorem linkHops_submits {size : ℕ} : ∀ {hops : List RouteHop} {current : ℚ},
    Submits cfg (linkHops P cfg size hops current)
  | [], _ => .pure _
  | _ :: _, _ => by
    unfold linkHops
    exact .ite linkHops_submits (submitLinkPhase_submits.bind fun _ => linkHops_submits.bind fun _ => .pure _)

theorem linkSegment_submits {source target : String} {size : ℕ} {arrivalNs : ℚ} :
    Submits cfg (linkSegment P cfg source target size arrivalNs) :=
  (Submits.raise _).bind fun _ => linkHops_submits

theorem flushAccesses_submits {binding : PageBinding} : ∀ {accesses : List BackingAccess} {current : ℚ},
    Submits cfg (flushAccesses P cfg binding accesses current)
  | [], _ => .pure _
  | _ :: _, _ => (Submits.raise _).bind fun _ => priceChunks_submits.bind fun _ => flushAccesses_submits.bind fun _ =>
    .pure _

theorem flushCaches_submits {binding : PageBinding} : ∀ {caches : List String} {current : ℚ},
    Submits cfg (flushCaches P cfg binding caches current)
  | [], _ => .pure _
  | _ :: _, _ => (Submits.onWorld _).bind fun _ => flushAccesses_submits.bind fun _ => flushCaches_submits.bind fun _ =>
    .pure _

theorem flushSourceCaches_submits {binding : PageBinding} {arrivalNs : ℚ} :
    Submits cfg (flushSourceCaches P cfg binding arrivalNs) := Submits.get.bind fun _ => flushCaches_submits

theorem allocationBytes_submits {componentId : String} {payload : ℕ} :
    Submits cfg (allocationBytes P cfg componentId payload) :=
  (Submits.raise _).bind fun _ => Submits.get.bind fun _ => .pure _

theorem allocateTarget_submits {request : TransferRequest} {binding : PageBinding} {owner : String} :
    Submits cfg (allocateTarget P cfg request binding owner) :=
  allocationBytes_submits.bind fun _ => Submits.onWorld _

theorem allocateRelay_submits {request : TransferRequest} {binding : PageBinding} {component : String} :
    Submits cfg (allocateRelay P cfg request binding component) :=
  (Submits.raise _).bind fun _ => allocationBytes_submits.bind fun _ => (Submits.onWorld _).bind fun _ => .pure _

theorem transferRelays_submits {request : TransferRequest} {binding : PageBinding} :
    ∀ {stages : List String} {component : String} {current : ℚ},
      Submits cfg (transferRelays P cfg request binding stages component current)
  | [], _, _ => .pure _
  | _ :: _, _, _ => linkSegment_submits.bind fun _ => allocateRelay_submits.bind fun _ => priceChunks_submits.bind fun _ =>
    priceChunks_submits.bind fun _ => (Submits.counters _).bind fun _ => transferRelays_submits.bind fun _ => .pure _

theorem downstreamStages_submits {request : TransferRequest} {binding : PageBinding} {target : Allocation} :
    ∀ {components : List String} {source : String},
      Submits cfg (downstreamStages P cfg request binding target components source)
  | [], _ => (Submits.raise _).bind fun _ => .pure _
  | _ :: _, _ => (Submits.raise _).bind fun _ => allocateRelay_submits.bind fun _ => downstreamStages_submits.bind fun _ =>
    .pure _

theorem transferBody_submits {request : TransferRequest} {binding : PageBinding} {owner : String} {start : ℚ} :
    Submits cfg (transferBody P cfg request binding owner start) :=
  allocateTarget_submits.bind fun _ => flushSourceCaches_submits.bind fun _ => priceChunks_submits.bind fun _ =>
    transferRelays_submits.bind fun _ => linkSegment_submits.bind fun _ => priceChunks_submits.bind fun _ => .pure _

theorem asyncBody_submits {request : TransferRequest} {binding : PageBinding} {owner : String} {start : ℚ} :
    Submits cfg (asyncBody P cfg request binding owner start) :=
  allocateTarget_submits.bind fun _ => downstreamStages_submits.bind fun _ => flushSourceCaches_submits.bind fun _ =>
    priceChunks_submits.bind fun _ => .pure _

end HeteroSim.Transfer
