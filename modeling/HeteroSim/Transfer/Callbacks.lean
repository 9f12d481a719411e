/-
What the calls of a plan do to the plan states. Seen through the table, a
state is registered, goes one phase on under a new token, or ends; a call that
raises leaves the table as it was, if perhaps in new objects. A callback whose
plan is not in the table under its own token changes nothing.
-/
import HeteroSim.Transfer.Exact

namespace HeteroSim.Transfer

variable {W S : Type} {P : Platform W S} {cfg : Config} {s t u : Executor W} {α β : Type}

/-- A prefix that keeps `I`, whatever comes behind it. -/
theorem wp_bind_keeps {I : Executor W → Prop} {m : M W α} {f : α → M W β} {Q : β → Executor W → Prop}
    {R : Raised → Executor W → Prop} (hm : Keeps I m) (hs : I s) (hf : ∀ a t, I t → wp (f a) Q R t)
    (hR : ∀ e t, I t → R e t) : wp (m >>= f) Q R s := by
  rw [wp_bind]
  exact wp_mono (hm s hs) hf hR

/-- The plan states as the table shows them. -/
def Executor.states (s : Executor W) (planId : ℕ) : Option PlanState := (s.plans.get? planId).map s.stateAt

/-- The table refers to live states, each under its own id. -/
structure Wf (s : Executor W) : Prop where
  place : ∀ p r, s.plans.get? p = some r → r < s.heap.length
  planId : ∀ p r, s.plans.get? p = some r → (s.stateAt r).planId = p
  live : ∀ p r, s.plans.get? p = some r → (s.stateAt r).done = false
  known : ∀ p r, s.plans.get? p = some r → p < s.nextAsyncPlanId

/-- State objects stay, each under its id; ids and tokens only grow. -/
structure Extends (s t : Executor W) : Prop where
  length : s.heap.length ≤ t.heap.length
  planId : ∀ i, i < s.heap.length → (t.stateAt i).planId = (s.stateAt i).planId
  ids : s.nextAsyncPlanId ≤ t.nextAsyncPlanId
  tokens : s.nextAsyncPhaseToken ≤ t.nextAsyncPhaseToken

theorem Extends.refl (s : Executor W) : Extends s s := ⟨le_rfl, fun _ _ => rfl, le_rfl, le_rfl⟩

theorem Extends.trans (h : Extends s t) (h' : Extends t u) : Extends s u where
  length := h.length.trans h'.length
  planId := fun i hi => (h'.planId i (hi.trans_le h.length)).trans (h.planId i hi)
  ids := h.ids.trans h'.ids
  tokens := h.tokens.trans h'.tokens

/-- The plan states, objects and all, are as they were; tokens may have been drawn. -/
structure PlansKept (s t : Executor W) : Prop where
  heap : t.heap = s.heap
  plans : t.plans = s.plans
  planId : t.nextAsyncPlanId = s.nextAsyncPlanId
  token : s.nextAsyncPhaseToken ≤ t.nextAsyncPhaseToken
  epoch : t.asyncRestoreEpoch = s.asyncRestoreEpoch

theorem PlansKept.refl (s : Executor W) : PlansKept s s := ⟨rfl, rfl, rfl, le_rfl, rfl⟩

theorem PlansKept.trans (h : PlansKept s t) (h' : PlansKept t u) : PlansKept s u :=
  ⟨h'.heap.trans h.heap, h'.plans.trans h.plans, h'.planId.trans h.planId, h.token.trans h'.token, h'.epoch.trans h.epoch⟩

theorem OnlySubmits.plansKept (h : OnlySubmits cfg s t) : PlansKept s t := ⟨h.heap, h.plans, h.planId, h.token.ge, h.epoch⟩

theorem PlansKept.stateAt (h : PlansKept s t) (i : ℕ) : t.stateAt i = s.stateAt i := by
  rw [Executor.stateAt, Executor.stateAt, h.heap]

theorem PlansKept.states (h : PlansKept s t) (p : ℕ) : t.states p = s.states p := by
  rw [Executor.states, Executor.states, h.plans]
  cases s.plans.get? p with
  | none => rfl
  | some r => rw [Option.map_some, Option.map_some, h.stateAt]

theorem PlansKept.extends (h : PlansKept s t) : Extends s t :=
  ⟨by rw [h.heap], fun i _ => by rw [h.stateAt], h.planId.ge, h.token⟩

theorem PlansKept.wf (h : PlansKept s t) (hs : Wf s) : Wf t where
  place := fun p r hr => by
    rw [h.heap]
    exact hs.place p r (h.plans ▸ hr)
  planId := fun p r hr => by
    rw [h.stateAt]
    exact hs.planId p r (h.plans ▸ hr)
  live := fun p r hr => by
    rw [h.stateAt]
    exact hs.live p r (h.plans ▸ hr)
  known := fun p r hr => by
    rw [h.planId]
    exact hs.known p r (h.plans ▸ hr)

theorem Wf.states (h : Wf s) {p : ℕ} {st : PlanState} (hst : s.states p = some st) :
    ∃ r, s.plans.get? p = some r ∧ s.stateAt r = st ∧ st.planId = p ∧ st.done = false ∧ p < s.nextAsyncPlanId := by
  obtain ⟨r, hr, rfl⟩ := Option.map_eq_some_iff.1 hst
  exact ⟨r, hr, rfl, h.planId p r hr, h.live p r hr, h.known p r hr⟩

theorem stateAt_set {l : List PlanState} {x : PlanState} {i j : ℕ} (hs : s.heap = l.set i x) (hj : j ≠ i) :
    s.stateAt j = (l[j]?).getD ⟨0, 0, 0, 0, false, none⟩ := by
  rw [Executor.stateAt, hs, List.getElem?_set_ne hj.symm]

theorem stateAt_set_self {l : List PlanState} {x : PlanState} {i : ℕ} (hs : s.heap = l.set i x) (hi : i < l.length) :
    s.stateAt i = x := by
  rw [Executor.stateAt, hs, List.getElem?_set_self hi]
  rfl

/-! ## Registration -/

theorem registerPlan_spec {count : ℕ} {registered : ℕ × ℕ} (hs : Wf s) (h : registerPlan count s = .ok registered t) :
    Wf t ∧ Extends s t ∧ t.states = Function.update s.states s.nextAsyncPlanId
        (some ⟨s.nextAsyncPlanId, 0, count, s.nextAsyncPhaseToken, false, none⟩) ∧
      t.nextAsyncPlanId = s.nextAsyncPlanId + 1 ∧ t.nextAsyncPhaseToken = s.nextAsyncPhaseToken + 1 ∧
      registered = (s.heap.length, s.nextAsyncPhaseToken) ∧ s.heap.length < t.heap.length ∧
      (t.stateAt s.heap.length).planId = s.nextAsyncPlanId := by
  cases h
  have hnew : ∀ i, i = s.heap.length → ((s.heap ++ [PlanState.mk s.nextAsyncPlanId 0 count s.nextAsyncPhaseToken false none])[i]?).getD
      ⟨0, 0, 0, 0, false, none⟩ = ⟨s.nextAsyncPlanId, 0, count, s.nextAsyncPhaseToken, false, none⟩ := by
    intro i hi
    rw [hi, List.getElem?_concat_length]
    rfl
  have hold : ∀ i, i < s.heap.length → ((s.heap ++ [PlanState.mk s.nextAsyncPlanId 0 count s.nextAsyncPhaseToken false none])[i]?).getD
      ⟨0, 0, 0, 0, false, none⟩ = s.stateAt i := by
    intro i hi
    rw [List.getElem?_append_left hi]
    rfl
  have hcases : ∀ p r, (s.plans.insert s.nextAsyncPlanId s.heap.length).get? p = some r →
      p = s.nextAsyncPlanId ∧ r = s.heap.length ∨ p ≠ s.nextAsyncPlanId ∧ s.plans.get? p = some r := by
    intro p r hr
    rw [Dict.get?_insert] at hr
    split at hr
    · next he => exact .inl ⟨he, (Option.some.inj hr).symm⟩
    · next he => exact .inr ⟨he, hr⟩
  refine ⟨⟨fun p r hr => ?_, fun p r hr => ?_, fun p r hr => ?_, fun p r hr => ?_⟩, ⟨?_, ?_, Nat.le_succ _, Nat.le_succ _⟩,
    funext fun p => ?_, rfl, rfl, rfl, ?_, ?_⟩
  · change r < (s.heap ++ [_]).length
    rw [List.length_append, List.length_singleton]
    obtain ⟨-, rfl⟩ | ⟨-, hr⟩ := hcases p r hr
    · exact Nat.lt_succ_self _
    · exact (hs.place p r hr).trans (Nat.lt_succ_self _)
  · obtain ⟨rfl, rfl⟩ | ⟨-, hr⟩ := hcases p r hr
    · exact congrArg PlanState.planId (hnew _ rfl)
    · exact (congrArg PlanState.planId (hold r (hs.place p r hr))).trans (hs.planId p r hr)
  · obtain ⟨rfl, rfl⟩ | ⟨-, hr⟩ := hcases p r hr
    · exact congrArg PlanState.done (hnew _ rfl)
    · exact (congrArg PlanState.done (hold r (hs.place p r hr))).trans (hs.live p r hr)
  · obtain ⟨rfl, -⟩ | ⟨-, hr⟩ := hcases p r hr
    · exact Nat.lt_succ_self _
    · exact (hs.known p r hr).trans (Nat.lt_succ_self _)
  · change s.heap.length ≤ (s.heap ++ [_]).length
    rw [List.length_append]
    exact Nat.le_add_right _ _
  · exact fun i hi => congrArg PlanState.planId (hold i hi)
  · rw [Executor.states, Function.update_apply]
    change Option.map _ ((s.plans.insert s.nextAsyncPlanId s.heap.length).get? p) = _
    rw [Dict.get?_insert]
    split
    · exact congrArg some (hnew _ rfl)
    · rw [Executor.states]
      cases hr : s.plans.get? p with
      | none => rfl
      | some r => exact congrArg some (hold r (hs.place p r hr))
  · change s.heap.length < (s.heap ++ [_]).length
    rw [List.length_append, List.length_singleton]
    exact Nat.lt_succ_self _
  · exact congrArg PlanState.planId (hnew _ rfl)

/-! ## Ends, advances and copies -/

/-- The table after a call, in well-formed objects. -/
structure Turns (s t : Executor W) (states : ℕ → Option PlanState) : Prop where
  wf : Wf t
  grown : Extends s t
  states : t.states = states

theorem PlansKept.turns (h : PlansKept s t) (hs : Wf s) : Turns s t s.states := ⟨h.wf hs, h.extends, funext h.states⟩

theorem Turns.after {f : ℕ → Option PlanState} (h : PlansKept s t) (h' : Turns t u f) : Turns s u f :=
  ⟨h'.wf, h.extends.trans h'.grown, h'.states⟩

/-- One object of the table's changed in place, still live and under its id. -/
theorem turns_set {p live : ℕ} {x : PlanState} (hs : Wf s) (hp : s.plans.get? p = some live) (hx : x.planId = p)
    (hdone : x.done = false) : Turns s { s with heap := s.heap.set live x } (Function.update s.states p (some x)) := by
  have hlive := hs.place p live hp
  have hself : ({ s with heap := s.heap.set live x } : Executor W).stateAt live = x := stateAt_set_self rfl hlive
  have hother : ∀ i, i ≠ live → ({ s with heap := s.heap.set live x } : Executor W).stateAt i = s.stateAt i :=
    fun i hi => stateAt_set rfl hi
  have hplan : ∀ i, (({ s with heap := s.heap.set live x } : Executor W).stateAt i).planId = (s.stateAt i).planId := by
    intro i
    by_cases hi : i = live
    · rw [hi, hself, hx, hs.planId p live hp]
    · rw [hother i hi]
  refine ⟨⟨fun q r hr => ?_, fun q r hr => ?_, fun q r hr => ?_, hs.known⟩, ⟨?_, fun i _ => hplan i, le_rfl, le_rfl⟩,
    funext fun q => ?_⟩
  · change r < (s.heap.set live x).length
    rw [List.length_set]
    exact hs.place q r hr
  · rw [hplan]
    exact hs.planId q r hr
  · by_cases hi : r = live
    · rw [hi, hself, hdone]
    · rw [hother r hi]
      exact hs.live q r hr
  · change s.heap.length ≤ (s.heap.set live x).length
    rw [List.length_set]
  · rw [Function.update_apply, Executor.states]
    change Option.map _ (s.plans.get? q) = _
    split
    · next hq => rw [hq, hp, Option.map_some, hself]
    · next hq =>
      rw [Executor.states]
      cases hr : s.plans.get? q with
      | none => rfl
      | some r =>
        have hne : r ≠ live := fun he => hq (by rw [← hs.planId q r hr, he, hs.planId p live hp])
        rw [Option.map_some, Option.map_some, hother r hne]

/-- A plan that ends goes out of the table. -/
theorem finish_turns {p live callback : ℕ} (hs : Wf s) (hp : s.plans.get? p = some live)
    (hcallback : (s.stateAt callback).planId = p) (hbound : callback < s.heap.length) :
    Turns s (s.finish live callback) (Function.update s.states p none) := by
  have hlive := hs.place p live hp
  have hid := hs.planId p live hp
  have hplans : (s.finish live callback).plans = s.plans.erase p := by rw [← hid]; rfl
  have hlen : (s.heap.set live { s.stateAt live with done := true }).length = s.heap.length := List.length_set
  have hself : (s.finish live callback).stateAt callback =
      { s.stateAt live with done := true, terminalEpoch := some s.asyncRestoreEpoch } :=
    stateAt_set_self rfl (hlen ▸ hbound)
  have hother : ∀ i, i ≠ callback → i ≠ live → (s.finish live callback).stateAt i = s.stateAt i := by
    intro i hi hi'
    rw [@stateAt_set W (s.finish live callback) (s.heap.set live { s.stateAt live with done := true }) _ callback i rfl hi,
      List.getElem?_set_ne hi'.symm, Executor.stateAt]
  have hplan : ∀ i, ((s.finish live callback).stateAt i).planId = (s.stateAt i).planId := by
    intro i
    by_cases hi : i = callback
    · rw [hi, hself, hcallback]
      exact hid
    · by_cases hi' : i = live
      · rw [@stateAt_set W (s.finish live callback) (s.heap.set live { s.stateAt live with done := true }) _ callback i rfl hi,
          hi', List.getElem?_set_self hlive]
        rfl
      · rw [hother i hi hi']
  have hrest : ∀ q r, (s.plans.erase p).get? q = some r → q ≠ p ∧ s.plans.get? q = some r ∧ r ≠ callback ∧ r ≠ live := by
    intro q r hr
    rw [Dict.get?_erase] at hr
    split at hr
    · cases hr
    · next hq =>
      have hqid := hs.planId q r hr
      exact ⟨hq, hr, fun he => hq (by rw [← hqid, he, hcallback]), fun he => hq (by rw [← hqid, he, hid])⟩
  refine ⟨⟨fun q r hr => ?_, fun q r hr => ?_, fun q r hr => ?_, fun q r hr => ?_⟩,
    ⟨?_, fun i _ => hplan i, le_rfl, le_rfl⟩, funext fun q => ?_⟩
  · change r < ((s.heap.set live _).set callback _).length
    rw [List.length_set, List.length_set]
    exact hs.place q r (hrest q r (hplans ▸ hr)).2.1
  · rw [hplan]
    exact hs.planId q r (hrest q r (hplans ▸ hr)).2.1
  · obtain ⟨-, hr, hne, hne'⟩ := hrest q r (hplans ▸ hr)
    rw [hother r hne hne']
    exact hs.live q r hr
  · exact hs.known q r (hrest q r (hplans ▸ hr)).2.1
  · change s.heap.length ≤ ((s.heap.set live _).set callback _).length
    rw [List.length_set, List.length_set]
  · rw [Function.update_apply, Executor.states, hplans]
    cases hr : (s.plans.erase p).get? q with
    | none =>
      split
      · rfl
      · next hq =>
        rw [Dict.get?_erase_of_ne _ hq] at hr
        rw [Executor.states, hr]
        rfl
    | some r =>
      obtain ⟨hq, hr, hne, hne'⟩ := hrest q r hr
      rw [if_neg hq, Executor.states, hr, Option.map_some, Option.map_some, hother r hne hne']

/-- States of a table, each live and under its id. -/
def Copied (states : Dict ℕ PlanState) (nextId : ℕ) : Prop :=
  ∀ p st, states.get? p = some st → st.planId = p ∧ st.done = false ∧ p < nextId

theorem Wf.copied (h : Wf s) : Copied s.copyStates s.nextAsyncPlanId := by
  intro p st hst
  rw [Executor.copyStates, Dict.get?_mapValues] at hst
  obtain ⟨r, hr, rfl⟩ := Option.map_eq_some_iff.1 hst
  exact ⟨h.planId p r hr, h.live p r hr, h.known p r hr⟩

theorem copyStates_get? (s : Executor W) : s.copyStates.get? = s.states :=
  funext fun p => Dict.get?_mapValues _ _ p

/-- Copies put in the table, in new objects. -/
theorem install_turns {states : Dict ℕ PlanState} (h : Copied states s.nextAsyncPlanId) :
    Turns s (s.install states) states.get? := by
  have hat : ∀ i st, states.values[i]? = some st → (s.install states).stateAt (s.heap.length + i) = st := by
    intro i st hi
    rw [Executor.stateAt]
    change ((s.heap ++ states.values)[s.heap.length + i]?).getD _ = st
    rw [List.getElem?_append_right (Nat.le_add_right _ _), Nat.add_sub_cancel_left, hi]
    rfl
  have hplace : ∀ p r, (s.install states).plans.get? p = some r →
      ∃ st, states.get? p = some st ∧ (s.install states).stateAt r = st ∧ r < s.heap.length + states.values.length := by
    intro p r hr
    obtain ⟨i, st, rfl, hi, hst⟩ := Dict.get?_places hr
    exact ⟨st, hst, hat i st hi, Nat.add_lt_add_left (List.getElem?_eq_some_iff.1 hi).1 _⟩
  refine ⟨⟨fun p r hr => ?_, fun p r hr => ?_, fun p r hr => ?_, fun p r hr => ?_⟩,
    ⟨?_, fun i hi => ?_, le_rfl, le_rfl⟩, funext fun p => ?_⟩
  · obtain ⟨st, -, -, hlt⟩ := hplace p r hr
    change r < (s.heap ++ states.values).length
    rwa [List.length_append]
  · obtain ⟨st, hst, hr, -⟩ := hplace p r hr
    rw [hr]
    exact (h p st hst).1
  · obtain ⟨st, hst, hr, -⟩ := hplace p r hr
    rw [hr]
    exact (h p st hst).2.1
  · obtain ⟨st, hst, -, -⟩ := hplace p r hr
    exact (h p st hst).2.2
  · change s.heap.length ≤ (s.heap ++ states.values).length
    rw [List.length_append]
    exact Nat.le_add_right _ _
  · rw [Executor.stateAt, Executor.stateAt]
    change (((s.heap ++ states.values)[i]?).getD _).planId = _
    rw [List.getElem?_append_left hi]
  · rw [Executor.states]
    cases hr : (s.install states).plans.get? p with
    | none =>
      have hnone : p ∉ states.keys := by
        rw [← Dict.keys_places states s.heap.length]
        exact Dict.get?_eq_none.1 hr
      rw [Dict.get?_eq_none.2 hnone]
      rfl
    | some r =>
      obtain ⟨st, hst, hat, -⟩ := hplace p r hr
      rw [Option.map_some, hat, hst]

/-- Only the objects and the table of the plans, with their counters, are looked at. -/
theorem Turns.of_plans {v : Executor W} {f : ℕ → Option PlanState} (h : Turns s t f) (hheap : v.heap = t.heap)
    (hplans : v.plans = t.plans) (hid : v.nextAsyncPlanId = t.nextAsyncPlanId)
    (htoken : v.nextAsyncPhaseToken = t.nextAsyncPhaseToken) : Turns s v f := by
  have hat : ∀ i, v.stateAt i = t.stateAt i := fun i => by rw [Executor.stateAt, Executor.stateAt, hheap]
  refine ⟨⟨fun p r hr => ?_, fun p r hr => ?_, fun p r hr => ?_, fun p r hr => ?_⟩, ⟨?_, fun i hi => ?_, ?_, ?_⟩, ?_⟩
  · rw [hheap]
    exact h.wf.place p r (hplans ▸ hr)
  · rw [hat]
    exact h.wf.planId p r (hplans ▸ hr)
  · rw [hat]
    exact h.wf.live p r (hplans ▸ hr)
  · rw [hid]
    exact h.wf.known p r (hplans ▸ hr)
  · rw [hheap]
    exact h.grown.length
  · rw [hat]
    exact h.grown.planId i hi
  · rw [hid]
    exact h.grown.ids
  · rw [htoken]
    exact h.grown.tokens
  · rw [← h.states]
    funext p
    rw [Executor.states, Executor.states, hplans, show v.stateAt = t.stateAt from funext hat]

theorem undoIo_kept (h : PlansKept s t) : PlansKept s (undoIo P cfg s t) := ⟨h.heap, h.plans, h.planId, h.token, h.epoch⟩

/-- A finalization that raised: copies of the states before it are in the table. -/
theorem undoFinalization_turns {callback : ℕ} (hs : Wf s) (h : PlansKept s t) (hbound : callback < s.heap.length) :
    Turns s (undoFinalization callback s t) s.states := by
  have hinstall : Turns s (t.install s.copyStates) s.states := by
    refine .after h ?_
    have := @install_turns W t s.copyStates (h.planId ▸ hs.copied)
    rwa [copyStates_get?] at this
  refine hinstall.of_plans ?_ rfl rfl rfl
  change ((t.install s.copyStates).heap).set callback (s.stateAt callback) = (t.install s.copyStates).heap
  have hget : (t.install s.copyStates).heap[callback]? = some (s.stateAt callback) := by
    change (t.heap ++ s.copyStates.values)[callback]? = _
    rw [h.heap, List.getElem?_append_left hbound, Executor.stateAt, List.getElem?_eq_getElem hbound]
    rfl
  obtain ⟨hlt, hval⟩ := List.getElem?_eq_some_iff.1 hget
  rw [← hval, List.set_getElem_self]

/-! ## The calls -/

/-- Where a call of a plan finds its state, if it does. -/
theorem transferState_cases (hs : Wf s) (state : ℕ) :
    (∃ live st, s.plans.get? (s.stateAt state).planId = some live ∧ transferState state s = .ok live s ∧
      s.stateAt live = st ∧ s.states (s.stateAt state).planId = some st ∧ st.done = false) ∨
    (s.states (s.stateAt state).planId = none ∧ (s.stateAt state).done = true ∧ transferState state s = .ok state s) ∨
    ∃ e, transferState state s = .error e s := by
  cases hp : s.plans.get? (s.stateAt state).planId with
  | some live =>
    refine .inl ⟨live, _, rfl, transferState_live hp, rfl, ?_, hs.live _ _ hp⟩
    rw [Executor.states, hp]
    rfl
  | none =>
    have hcall : transferState state s = (if (s.stateAt state).done ∧
        (s.stateAt state).terminalEpoch = some s.asyncRestoreEpoch then pure state
        else throw (Raised.kvPool "physical transfer plan is no longer active") : M W ℕ) s := by
      unfold transferState
      refine get_bind_eq.trans ?_
      simp only [hp]
    rw [hcall, Executor.states, hp]
    by_cases hdone : (s.stateAt state).done ∧ (s.stateAt state).terminalEpoch = some s.asyncRestoreEpoch
    · rw [if_pos hdone]
      exact .inr (.inl ⟨rfl, hdone.1, rfl⟩)
    · rw [if_neg hdone]
      exact .inr (.inr ⟨_, rfl⟩)

/-- A check inside a call. -/
theorem refuse_bind {c : Prop} [Decidable c] {e : Raised} {f : Unit → M W α} :
    ((raise (refuse c e) >>= f) s = f () s ∧ ¬c) ∨ ((raise (refuse c e) >>= f) s = .error e s ∧ c) := by
  by_cases hc : c
  · exact .inr ⟨bind_error_eq (raise_refuse_error hc), hc⟩
  · exact .inl ⟨bind_ok_eq (raise_refuse_ok hc), hc⟩

/-- The plan's state in the table, under the token its callback expects. -/
def Holds (s : Executor W) (plan : Plan S) (st : PlanState) : Prop :=
  s.states (s.stateAt plan.state).planId = some st ∧ st.phaseToken = plan.token

theorem advancePhase_submits {plan : Plan S} {token : ℕ} : Submits cfg (advancePhase P cfg plan token) := by
  unfold advancePhase
  split
  · exact fun _ => .throw _
  · exact submitLinkPhase_submits.bind fun _ => .pure _
  · exact priceChunks_submits.bind fun _ => (Submits.counters _).bind fun _ => .pure _

/-- The next plan refers to the same state, under the token drawn for it. -/
theorem advancePhase_returns {plan : Plan S} {token : ℕ} :
    Returns (advancePhase P cfg plan token) fun next => next.state = plan.state ∧ next.token = token := by
  unfold advancePhase
  split
  · intro s a t h
    cases h
  · exact (Returns.any _).bind fun _ _ => .pure ⟨rfl, rfl⟩
  · exact (Returns.any _).bind fun _ _ => (Returns.any _).bind fun _ _ => .pure ⟨rfl, rfl⟩

/-- The transaction of `advance`, on a live state. -/
theorem submitNext_spec {plan : Plan S} {live p : ℕ} (hs : Wf s) (hp : s.plans.get? p = some live) :
    (∃ e t, ioTransaction P cfg (submitNext P cfg plan live) s = .error e t ∧ Turns s t s.states) ∨
    ∃ next t, ioTransaction P cfg (submitNext P cfg plan live) s = .ok next t ∧
      Turns s t (Function.update s.states p (some { s.stateAt live with
        phase := plan.index + 1
        phaseToken := s.nextAsyncPhaseToken })) ∧
      next.state = plan.state ∧ next.token = s.nextAsyncPhaseToken ∧ s.nextAsyncPhaseToken < t.nextAsyncPhaseToken := by
  let s₁ : Executor W := { s with nextAsyncPhaseToken := s.nextAsyncPhaseToken + 1 }
  have hs₁ : PlansKept s s₁ := ⟨rfl, rfl, rfl, Nat.le_succ _, rfl⟩
  have htoken : newPhaseToken s = .ok s.nextAsyncPhaseToken s₁ := rfl
  cases hadv : advancePhase P cfg plan s.nextAsyncPhaseToken s₁ with
  | error e t =>
    have hbody : submitNext P cfg plan live s = .error e t := (bind_ok_eq htoken).trans (bind_error_eq hadv)
    refine .inl ⟨e, undoIo P cfg s t, by rw [ioTransaction, hbody], ?_⟩
    exact (undoIo_kept (hs₁.trans (advancePhase_submits.error hadv).plansKept)).turns hs
  | ok next t =>
    have hkept := hs₁.trans (advancePhase_submits.ok hadv).plansKept
    have hbody : submitNext P cfg plan live s = .ok next { t with heap := t.heap.set live { t.stateAt live with
        phase := plan.index + 1
        phaseToken := s.nextAsyncPhaseToken } } := (bind_ok_eq htoken).trans (bind_ok_eq hadv)
    refine .inr ⟨next, _, by rw [ioTransaction, hbody], ?_, ?_⟩
    · have hturn := @turns_set W t p live { t.stateAt live with
        phase := plan.index + 1
        phaseToken := s.nextAsyncPhaseToken } (hkept.wf hs) (hkept.plans ▸ hp)
        (by rw [hkept.stateAt]; exact hs.planId p live hp) (by rw [hkept.stateAt]; exact hs.live p live hp)
      rw [hkept.stateAt, show t.states = s.states from funext hkept.states] at hturn
      rw [hkept.stateAt]
      exact .after hkept hturn
    · obtain ⟨hstate, hnext⟩ := advancePhase_returns _ _ _ hadv
      exact ⟨hstate, hnext, Nat.lt_of_succ_le (advancePhase_submits.ok hadv).token.ge⟩

/-- **Advancing**: the plan's state goes one phase on, under a new token, or the call raises. -/
theorem advance_spec (hs : Wf s) (plan : Plan S) :
    (∃ e t, advance P cfg plan s = .error e t ∧ Turns s t s.states) ∨
    ∃ next t st, advance P cfg plan s = .ok next t ∧ Holds s plan st ∧ st.phase = plan.index ∧
      Turns s t (Function.update s.states (s.stateAt plan.state).planId (some { st with
        phase := plan.index + 1
        phaseToken := s.nextAsyncPhaseToken })) ∧
      next.state = plan.state ∧ next.token = s.nextAsyncPhaseToken ∧ s.nextAsyncPhaseToken < t.nextAsyncPhaseToken := by
  have hraise : ∀ {e : Raised}, advance P cfg plan s = .error e s →
      ∃ e t, advance P cfg plan s = .error e t ∧ Turns s t s.states :=
    fun h => ⟨_, s, h, (PlansKept.refl s).turns hs⟩
  have hopen : ∀ {live : ℕ}, transferState plan.state s = .ok live s → advance P cfg plan s = (do
      raise (refuse (s.stateAt live).done (Raised.kvPool "physical transfer was already committed or cancelled"))
      raise (refuse ((s.stateAt live).phase ≠ plan.index) (Raised.kvPool "physical transfer phase was already advanced"))
      raise (checkPhaseToken (s.stateAt live) plan.token)
      ioTransaction P cfg (submitNext P cfg plan live)) s := fun h => (bind_ok_eq h).trans get_bind_eq
  obtain ⟨live, st, hp, hcall, rfl, hst, hdone⟩ | ⟨-, hdone, hcall⟩ | ⟨e, hcall⟩ := transferState_cases hs plan.state
  · have h0 := hopen hcall
    rw [bind_ok_eq (raise_refuse_ok (by simp [hdone]))] at h0
    obtain ⟨h1, hphase⟩ | ⟨h1, -⟩ := refuse_bind (s := s) (c := (s.stateAt live).phase ≠ plan.index)
      (e := Raised.kvPool "physical transfer phase was already advanced")
      (f := fun _ => raise (checkPhaseToken (s.stateAt live) plan.token) >>= fun _ =>
        ioTransaction P cfg (submitNext P cfg plan live))
    · obtain ⟨h2, htoken⟩ | ⟨h2, -⟩ := refuse_bind (s := s) (c := (s.stateAt live).phaseToken ≠ plan.token)
        (e := Raised.kvPool "physical transfer phase belongs to a discarded future")
        (f := fun _ => ioTransaction P cfg (submitNext P cfg plan live))
      · have heq := h0.trans (h1.trans h2)
        obtain ⟨e, t, ht, hturn⟩ | ⟨next, t, ht, hturn, hnext⟩ := @submitNext_spec W S P cfg s plan live _ hs hp
        · exact .inl ⟨e, t, heq.trans ht, hturn⟩
        · exact .inr ⟨next, t, _, heq.trans ht, ⟨hst, not_not.1 htoken⟩, not_not.1 hphase, hturn, hnext⟩
      · exact .inl (hraise (h0.trans (h1.trans h2)))
    · exact .inl (hraise (h0.trans h1))
  · exact .inl (hraise ((hopen hcall).trans (bind_error_eq (raise_refuse_error hdone))))
  · exact .inl (hraise (bind_error_eq hcall))

theorem onWorld_kept {m : EStateM Raised W α} : Keeps (PlansKept s) (onWorld m) := by
  intro t ht
  unfold wp onWorld
  cases m t.world with
  | ok a w => exact ⟨ht.heap, ht.plans, ht.planId, ht.token, ht.epoch⟩
  | error e w => exact ⟨ht.heap, ht.plans, ht.planId, ht.token, ht.epoch⟩

theorem releaseTemps_kept {temps : List TempAllocation} : Keeps (PlansKept s) (releaseTemps P temps) :=
  Keeps.forM fun _ _ => onWorld_kept

theorem kept_modify {f : Executor W → Executor W} (hf : ∀ t, PlansKept t (f t)) :
    Keeps (PlansKept s) (modify f : M W PUnit) := fun t ht => ht.trans (hf t)

/-- The end of a finalization: everything before it has kept the plans. -/
theorem finishTransfer_turns {p live callback : ℕ} (hs : Wf s) (hp : s.plans.get? p = some live)
    (hcallback : (s.stateAt callback).planId = p) (hbound : callback < s.heap.length) (h : PlansKept s t) :
    Turns s (t.finish live callback) (Function.update s.states p none) := by
  have := finish_turns (h.wf hs) (h.plans ▸ hp) ((congrArg PlanState.planId (h.stateAt callback)).trans hcallback)
    (h.heap ▸ hbound)
  rw [show t.states = s.states from funext h.states] at this
  exact .after h this

/-- What publishing does to the plans. -/
theorem publish_spec {plan : Plan S} {live : ℕ} (hs : Wf s) (hp : s.plans.get? (s.stateAt plan.state).planId = some live)
    (hbound : plan.state < s.heap.length) :
    wp (publish P plan live) (fun _ t => Turns s t (Function.update s.states (s.stateAt plan.state).planId none))
      (fun _ t => PlansKept s t) s := by
  refine wp_bind_keeps Keeps.get (PlansKept.refl s) (fun _ t ht => ?_) fun _ _ h => h
  refine wp_bind_keeps (Keeps.raise _) ht (fun old t ht => ?_) fun _ _ h => h
  refine wp_bind_keeps onWorld_kept ht (fun _ t ht => ?_) fun _ _ h => h
  refine wp_bind_keeps (kept_modify fun _ => ⟨rfl, rfl, rfl, le_rfl, rfl⟩) ht (fun _ t ht => ?_) fun _ _ h => h
  refine wp_bind_keeps releaseTemps_kept ht (fun _ t ht => ?_) fun _ _ h => h
  refine wp_bind_keeps (kept_modify fun _ => ⟨rfl, rfl, rfl, le_rfl, rfl⟩) ht (fun _ t ht => ?_) fun _ _ h => h
  exact finishTransfer_turns hs hp rfl hbound ht

theorem finalization_error (P : Platform W S) (cfg : Config) {callback : ℕ} {body : M W α} {e : Raised} (hs : Wf s) (hbound : callback < s.heap.length)
    (h : body s = .error e t) (hkept : PlansKept s t) :
    ∃ u, finalizationTransaction P cfg callback body s = .error e u ∧ Turns s u s.states := by
  refine ⟨undoFinalization callback s (undoIo P cfg s t), ?_, undoFinalization_turns hs (undoIo_kept hkept) hbound⟩
  rw [finalizationTransaction, ioTransaction, h]

theorem finalization_ok {callback : ℕ} {body : M W α} {a : α} (h : body s = .ok a t) :
    finalizationTransaction P cfg callback body s = .ok a t := by
  rw [finalizationTransaction, ioTransaction, h]

/-- **Committing**: the plan ends, with all its phases behind it, or nothing happens, or the call raises. -/
theorem commit_spec (hs : Wf s) (plan : Plan S) (hbound : plan.state < s.heap.length) :
    (∃ e t, commitTransfer P cfg plan s = .error e t ∧ Turns s t s.states) ∨
    commitTransfer P cfg plan s = .ok false s ∨
    ∃ t st, commitTransfer P cfg plan s = .ok true t ∧ Holds s plan st ∧ st.phase = st.phaseCount ∧
      Turns s t (Function.update s.states (s.stateAt plan.state).planId none) := by
  have hraise : ∀ {e : Raised} {t : Executor W}, commitTransferImpl P plan s = .error e t → PlansKept s t →
      ∃ e t, commitTransfer P cfg plan s = .error e t ∧ Turns s t s.states := fun h hkept => by
    obtain ⟨u, hu, hturn⟩ := finalization_error P cfg hs hbound h hkept
    exact ⟨_, u, hu, hturn⟩
  have hopen : ∀ {live : ℕ}, transferState plan.state s = .ok live s → commitTransferImpl P plan s = (do
      raise (refuse ((s.stateAt live).phase ≠ (s.stateAt live).phaseCount)
        (Raised.kvPool "cannot commit before every physical transfer phase completes"))
      raise (checkPhaseToken (s.stateAt live) plan.token)
      if (s.stateAt live).done then return false else do
        publish P plan live
        return true) s := fun h => (bind_ok_eq h).trans get_bind_eq
  have hchecked : ∀ {live : ℕ}, transferState plan.state s = .ok live s →
      (∃ e, commitTransferImpl P plan s = .error e s) ∨
      ((s.stateAt live).phase = (s.stateAt live).phaseCount ∧ (s.stateAt live).phaseToken = plan.token ∧
        commitTransferImpl P plan s = (if (s.stateAt live).done then return false else do
          publish P plan live
          return true : M W Bool) s) := by
    intro live hcall
    obtain ⟨h1, hphase⟩ | ⟨h1, -⟩ := refuse_bind (s := s) (c := (s.stateAt live).phase ≠ (s.stateAt live).phaseCount)
      (e := Raised.kvPool "cannot commit before every physical transfer phase completes")
      (f := fun _ => raise (checkPhaseToken (s.stateAt live) plan.token) >>= fun _ =>
        (if (s.stateAt live).done then return false else do
          publish P plan live
          return true : M W Bool))
    · obtain ⟨h2, htoken⟩ | ⟨h2, -⟩ := refuse_bind (s := s) (c := (s.stateAt live).phaseToken ≠ plan.token)
        (e := Raised.kvPool "physical transfer phase belongs to a discarded future")
        (f := fun _ => (if (s.stateAt live).done then return false else do
          publish P plan live
          return true : M W Bool))
      · exact .inr ⟨not_not.1 hphase, not_not.1 htoken, (hopen hcall).trans (h1.trans h2)⟩
      · exact .inl ⟨_, (hopen hcall).trans (h1.trans h2)⟩
    · exact .inl ⟨_, (hopen hcall).trans h1⟩
  obtain ⟨live, st, hp, hcall, rfl, hst, hdone⟩ | ⟨-, hdone, hcall⟩ | ⟨e, hcall⟩ := transferState_cases hs plan.state
  · obtain ⟨e, herr⟩ | ⟨hphase, htoken, heq⟩ := hchecked hcall
    · exact .inl (hraise herr (.refl s))
    · rw [if_neg (by simp [hdone])] at heq
      have hpub := publish_spec (P := P) hs hp hbound
      unfold wp at hpub
      cases hres : publish P plan live s with
      | error e t =>
        rw [hres] at hpub
        exact .inl (hraise (heq.trans (bind_error_eq hres)) hpub)
      | ok _ t =>
        rw [hres] at hpub
        exact .inr (.inr ⟨t, _, finalization_ok (heq.trans (bind_ok_eq hres)), ⟨hst, htoken⟩, hphase, hpub⟩)
  · obtain ⟨e, herr⟩ | ⟨-, -, heq⟩ := hchecked hcall
    · exact .inl (hraise herr (.refl s))
    · rw [if_pos hdone] at heq
      exact .inr (.inl (finalization_ok heq))
  · exact .inl (hraise (bind_error_eq hcall) (.refl s))

/-- What abandoning does to the plans. -/
theorem abandon_spec {plan : Plan S} {live : ℕ} (hs : Wf s) (hp : s.plans.get? (s.stateAt plan.state).planId = some live)
    (hbound : plan.state < s.heap.length) :
    wp (abandon P plan live) (fun _ t => Turns s t (Function.update s.states (s.stateAt plan.state).planId none))
      (fun _ t => PlansKept s t) s := by
  refine wp_bind_keeps onWorld_kept (PlansKept.refl s) (fun _ t ht => ?_) fun _ _ h => h
  refine wp_bind_keeps releaseTemps_kept ht (fun _ t ht => ?_) fun _ _ h => h
  refine wp_bind_keeps Keeps.get ht (fun _ t ht => ?_) fun _ _ h => h
  refine wp_bind_keeps (Keeps.raise _) ht (fun binding t ht => ?_) fun _ _ h => h
  refine wp_bind_keeps (kept_modify fun _ => ⟨rfl, rfl, rfl, le_rfl, rfl⟩) ht (fun _ t ht => ?_) fun _ _ h => h
  exact finishTransfer_turns hs hp rfl hbound ht

/-- **Cancelling**: the plan ends, or the call raises. -/
theorem cancel_spec (hs : Wf s) (plan : Plan S) (hbound : plan.state < s.heap.length) :
    (∃ e t, cancelTransfer P cfg plan s = .error e t ∧ Turns s t s.states) ∨
    ∃ event t st, cancelTransfer P cfg plan s = .ok event t ∧ Holds s plan st ∧
      Turns s t (Function.update s.states (s.stateAt plan.state).planId none) := by
  have hraise : ∀ {e : Raised} {t : Executor W}, cancelTransferImpl P plan s = .error e t → PlansKept s t →
      ∃ e t, cancelTransfer P cfg plan s = .error e t ∧ Turns s t s.states := fun h hkept => by
    obtain ⟨u, hu, hturn⟩ := finalization_error P cfg hs hbound h hkept
    exact ⟨_, u, hu, hturn⟩
  have hopen : ∀ {live : ℕ}, transferState plan.state s = .ok live s → cancelTransferImpl P plan s = (do
      raise (refuse (s.stateAt live).done (Raised.kvPool "physical transfer was already committed or cancelled"))
      raise (refuse ((s.stateAt live).phase ≠ plan.index)
        (Raised.kvPool "cannot cancel using an earlier physical transfer phase"))
      raise (checkPhaseToken (s.stateAt live) plan.token)
      abandon P plan live) s := fun h => (bind_ok_eq h).trans get_bind_eq
  obtain ⟨live, st, hp, hcall, rfl, hst, hdone⟩ | ⟨-, hdone, hcall⟩ | ⟨e, hcall⟩ := transferState_cases hs plan.state
  · have h0 := hopen hcall
    rw [bind_ok_eq (raise_refuse_ok (by simp [hdone]))] at h0
    obtain ⟨h1, -⟩ | ⟨h1, -⟩ := refuse_bind (s := s) (c := (s.stateAt live).phase ≠ plan.index)
      (e := Raised.kvPool "cannot cancel using an earlier physical transfer phase")
      (f := fun _ => raise (checkPhaseToken (s.stateAt live) plan.token) >>= fun _ => abandon P plan live)
    · obtain ⟨h2, htoken⟩ | ⟨h2, -⟩ := refuse_bind (s := s) (c := (s.stateAt live).phaseToken ≠ plan.token)
        (e := Raised.kvPool "physical transfer phase belongs to a discarded future") (f := fun _ => abandon P plan live)
      · have heq := h0.trans (h1.trans h2)
        have habandon := abandon_spec (P := P) hs hp hbound
        unfold wp at habandon
        cases hres : abandon P plan live s with
        | error e t =>
          rw [hres] at habandon
          exact .inl (hraise (heq.trans hres) habandon)
        | ok event t =>
          rw [hres] at habandon
          exact .inr ⟨event, t, _, finalization_ok (heq.trans hres), ⟨hst, not_not.1 htoken⟩, habandon⟩
      · exact .inl (hraise (h0.trans (h1.trans h2)) (.refl s))
    · exact .inl (hraise (h0.trans h1) (.refl s))
  · exact .inl (hraise ((hopen hcall).trans (bind_error_eq (raise_refuse_error hdone))) (.refl s))
  · exact .inl (hraise (bind_error_eq hcall) (.refl s))

/-- **Rolling back**: the plan ends, or nothing happens, or the call raises. -/
theorem rollback_spec (hs : Wf s) (plan : Plan S) (hbound : plan.state < s.heap.length) :
    (∃ e, rollbackTransfer P plan s = .error e s) ∨ rollbackTransfer P plan s = .ok false s ∨
    ∃ t st, rollbackTransfer P plan s = .ok true t ∧ Holds s plan st ∧ st.phase = 0 ∧
      Turns s t (Function.update s.states (s.stateAt plan.state).planId none) := by
  have hopen : ∀ {live : ℕ}, transferState plan.state s = .ok live s → rollbackTransfer P plan s =
      (if (s.stateAt live).done then return false else do
        raise (refuse ((s.stateAt live).phase ≠ 0)
          (Raised.kvPool "only a just-prepared physical transfer can be rolled back"))
        raise (checkPhaseToken (s.stateAt live) plan.token)
        modify (plan.undo P)
        finishTransfer live plan.state
        return true : M W Bool) s := fun h => (bind_ok_eq h).trans get_bind_eq
  obtain ⟨live, st, hp, hcall, rfl, hst, hdone⟩ | ⟨-, hdone, hcall⟩ | ⟨e, hcall⟩ := transferState_cases hs plan.state
  · have h0 := hopen hcall
    rw [if_neg (by simp [hdone])] at h0
    obtain ⟨h1, hphase⟩ | ⟨h1, -⟩ := refuse_bind (s := s) (c := (s.stateAt live).phase ≠ 0)
      (e := Raised.kvPool "only a just-prepared physical transfer can be rolled back")
      (f := fun _ => raise (checkPhaseToken (s.stateAt live) plan.token) >>= fun _ => modify (plan.undo P) >>= fun _ =>
        finishTransfer live plan.state >>= fun _ => (pure true : M W Bool))
    · obtain ⟨h2, htoken⟩ | ⟨h2, -⟩ := refuse_bind (s := s) (c := (s.stateAt live).phaseToken ≠ plan.token)
        (e := Raised.kvPool "physical transfer phase belongs to a discarded future")
        (f := fun _ => modify (plan.undo P) >>= fun _ => finishTransfer live plan.state >>= fun _ => (pure true : M W Bool))
      · refine .inr (.inr ⟨(plan.undo P s).finish live plan.state, _, h0.trans (h1.trans h2), ⟨hst, not_not.1 htoken⟩,
          not_not.1 hphase, ?_⟩)
        exact finishTransfer_turns hs hp rfl hbound ⟨rfl, rfl, rfl, le_rfl, rfl⟩
      · exact .inl ⟨_, h0.trans (h1.trans h2)⟩
    · exact .inl ⟨_, h0.trans h1⟩
  · exact .inr (.inl ((hopen hcall).trans (by rw [if_pos hdone]; rfl)))
  · exact .inl ⟨e, bind_error_eq hcall⟩

/-- A preparation that raises leaves the plans as they were; one that returns has registered its plan. -/
theorem prepared_spec {body : M W Reserved} {count : Reserved → ℕ} {plan : Reserved → ℕ × ℕ → Plan S} (hs : Wf s)
    (hbody : Submits cfg body) :
    (∃ e t, settlePlan P body count plan s = .error e t ∧ PlansKept s t) ∨
    ∃ reserved t, settlePlan P body count plan s = .ok (plan reserved (s.heap.length, s.nextAsyncPhaseToken)) t ∧
      Turns s t (Function.update s.states s.nextAsyncPlanId
        (some ⟨s.nextAsyncPlanId, 0, count reserved, s.nextAsyncPhaseToken, false, none⟩)) ∧
      t.nextAsyncPlanId = s.nextAsyncPlanId + 1 ∧ t.nextAsyncPhaseToken = s.nextAsyncPhaseToken + 1 ∧
      s.heap.length < t.heap.length ∧ (t.stateAt s.heap.length).planId = s.nextAsyncPlanId := by
  cases hres : body s with
  | error e t =>
    have hsub := hbody.error hres
    exact .inl ⟨e, _, settlePlan_error hres, hsub.heap, hsub.plans, hsub.planId, hsub.token.ge, hsub.epoch⟩
  | ok reserved t =>
    have hsub := hbody.ok hres
    have hkept := hsub.plansKept
    obtain ⟨registered, u, hreg, hcall⟩ := @settlePlan_ok W S P s t body count plan reserved hres
    obtain ⟨hwf, hext, hstates, hid, htoken, hpair, hlt, hplan⟩ := registerPlan_spec (hkept.wf hs) hreg
    rw [hsub.heap, hsub.token] at hpair
    rw [hpair] at hcall
    rw [hsub.heap] at hlt hplan
    rw [hsub.planId] at hid hplan
    rw [hsub.token] at htoken
    rw [hsub.planId, hsub.token, show t.states = s.states from funext hkept.states] at hstates
    exact .inr ⟨reserved, u, hcall, .after hkept ⟨hwf, hext, hstates⟩, hid, htoken, hlt, hplan⟩

theorem checked_spec {α β γ : Type} (x : Except Raised α) (y : Except Raised β) (z : Except Raised γ)
    (rest : α → β → γ → M W (Plan S)) :
    (∃ e, (raise x >>= fun a => raise y >>= fun b => raise z >>= fun c => rest a b c) s = .error e s) ∨
    ∃ a b c, (raise x >>= fun a => raise y >>= fun b => raise z >>= fun c => rest a b c) s = rest a b c s := by
  cases x with
  | error e => exact .inl ⟨e, rfl⟩
  | ok a =>
    cases y with
    | error e => exact .inl ⟨e, rfl⟩
    | ok b =>
      cases z with
      | error e => exact .inl ⟨e, rfl⟩
      | ok c => exact .inr ⟨a, b, c, rfl⟩

/-- What a preparation does to the plans: one more, with its phases, under a new id and a new token. -/
structure Registers (s : Executor W) (count : ℕ) (plan : Plan S) (t : Executor W) : Prop where
  turns : Turns s t (Function.update s.states s.nextAsyncPlanId
    (some ⟨s.nextAsyncPlanId, 0, count, s.nextAsyncPhaseToken, false, none⟩))
  planId : t.nextAsyncPlanId = s.nextAsyncPlanId + 1
  token : t.nextAsyncPhaseToken = s.nextAsyncPhaseToken + 1
  state : plan.state = s.heap.length
  expects : plan.token = s.nextAsyncPhaseToken
  place : s.heap.length < t.heap.length
  id : (t.stateAt s.heap.length).planId = s.nextAsyncPlanId

theorem settled_registers (request : TransferRequest) (binding : PageBinding) (owner : String) (start : ℚ) (async : Bool)
    {body : M W Reserved} (count : Reserved → ℕ) (hs : Wf s) (hbody : Submits cfg body) :
    (∃ e t, settlePlan P body count (fun reserved registered =>
        makePlan P s request binding owner start reserved registered async) s = .error e t ∧ PlansKept s t) ∨
    ∃ reserved plan t, settlePlan P body count (fun reserved registered =>
        makePlan P s request binding owner start reserved registered async) s = .ok plan t ∧
      plan.downstream = reserved.downstream ∧ Registers s (count reserved) plan t := by
  refine (prepared_spec hs hbody).imp_right fun h => ?_
  obtain ⟨reserved, t, hcall, hturn, hid, htoken, hlt, hplan⟩ := h
  exact ⟨reserved, _, t, hcall, rfl, hturn, hid, htoken, rfl, rfl, hlt, hplan⟩

theorem transfer_spec (hs : Wf s) (request : TransferRequest) :
    (∃ e t, transfer P cfg request s = .error e t ∧ PlansKept s t) ∨
    ∃ plan t, transfer P cfg request s = .ok plan t ∧ Registers s 0 plan t := by
  obtain ⟨e, he⟩ | ⟨binding, service, start, he⟩ := checked_spec (s := s) (checkTransfer cfg s.bindings request)
    (ensureService cfg request.targetComponent) (cfg.arrivalNs request) fun binding service start =>
      settlePlan P (transferBody P cfg request binding service.physicalOwner start) (fun _ => 0) fun reserved registered =>
        makePlan P s request binding service.physicalOwner start reserved registered false
  · exact .inl ⟨e, s, he, .refl s⟩
  · obtain ⟨e, t, ht, hkept⟩ | ⟨reserved, plan, t, ht, -, hreg⟩ := settled_registers (P := P) request binding
      service.physicalOwner start false (fun _ => 0) hs transferBody_submits
    · exact .inl ⟨e, t, he.trans ht, hkept⟩
    · exact .inr ⟨plan, t, he.trans ht, hreg⟩

theorem prepareAsync_spec (hs : Wf s) (request : TransferRequest) :
    (∃ e t, prepareAsync P cfg request s = .error e t ∧ PlansKept s t) ∨
    ∃ plan t, prepareAsync P cfg request s = .ok plan t ∧ Registers s plan.downstream.length plan t := by
  obtain ⟨e, he⟩ | ⟨binding, service, start, he⟩ := checked_spec (s := s) (checkAsync s.bindings request)
    (ensureService cfg request.targetComponent) (cfg.arrivalNs request) fun binding service start =>
      settlePlan P (asyncBody P cfg request binding service.physicalOwner start)
        (fun reserved => reserved.downstream.length) fun reserved registered =>
          makePlan P s request binding service.physicalOwner start reserved registered true
  · exact .inl ⟨e, s, he, .refl s⟩
  · obtain ⟨e, t, ht, hkept⟩ | ⟨reserved, plan, t, ht, hstages, hreg⟩ := settled_registers (P := P) request binding
      service.physicalOwner start true (fun reserved => reserved.downstream.length) hs asyncBody_submits
    · exact .inl ⟨e, t, he.trans ht, hkept⟩
    · exact .inr ⟨plan, t, he.trans ht, by rw [hstages]; exact hreg⟩

/-! ## Restoring, and callbacks of a plan that is not held -/

/-- **Restoring**: the table shows the snapshot's states. -/
theorem restore_turns {snap : Snapshot S} (h : Copied snap.asyncPlanStates s.nextAsyncPlanId) :
    Turns s (s.restore P snap) snap.asyncPlanStates.get? := (install_turns h).of_plans rfl rfl rfl rfl

/-- Every callback of the plan raises, with the plan states as they were, or does nothing. -/
structure Inert (P : Platform W S) (cfg : Config) (plan : Plan S) (s : Executor W) : Prop where
  advance : ∃ e t, Transfer.advance P cfg plan s = .error e t ∧ t.states = s.states
  commit : (∃ e t, commitTransfer P cfg plan s = .error e t ∧ t.states = s.states) ∨
    commitTransfer P cfg plan s = .ok false s
  cancel : ∃ e t, cancelTransfer P cfg plan s = .error e t ∧ t.states = s.states
  rollback : (∃ e, rollbackTransfer P plan s = .error e s) ∨ rollbackTransfer P plan s = .ok false s

/-- **A callback whose plan phase is not in the table** does nothing. -/
theorem inert_of_not_holds (hs : Wf s) {plan : Plan S} (hbound : plan.state < s.heap.length)
    (h : ∀ st, ¬Holds s plan st) : Inert P cfg plan s where
  advance := by
    obtain ⟨e, t, ht, hturn⟩ | ⟨-, -, st, -, hholds, -⟩ := @advance_spec W S P cfg s hs plan
    · exact ⟨e, t, ht, hturn.states⟩
    · exact absurd hholds (h st)
  commit := by
    obtain ⟨e, t, ht, hturn⟩ | hnone | ⟨-, st, -, hholds, -⟩ := @commit_spec W S P cfg s hs plan hbound
    · exact .inl ⟨e, t, ht, hturn.states⟩
    · exact .inr hnone
    · exact absurd hholds (h st)
  cancel := by
    obtain ⟨e, t, ht, hturn⟩ | ⟨-, -, st, -, hholds, -⟩ := @cancel_spec W S P cfg s hs plan hbound
    · exact ⟨e, t, ht, hturn.states⟩
    · exact absurd hholds (h st)
  rollback := by
    obtain he | hnone | ⟨-, st, -, hholds, -⟩ := @rollback_spec W S P s hs plan hbound
    · exact .inl he
    · exact .inr hnone
    · exact absurd hholds (h st)

end HeteroSim.Transfer
