/-
Every interleaving of preparations, callbacks, snapshots and restores on one
executor. A history is what took effect, in order; a restore goes back to the
snapshot's. The table of the executor accounts for the history of every plan:
a plan in it was prepared and advanced phase by phase, one that is not has
ended or is not part of this history at all.
-/
import HeteroSim.Transfer.Callbacks
import HeteroSim.Transitions

namespace HeteroSim.Transfer

variable {W S : Type}

/-! ## The system -/

/-- What a call that took effect did to its plan. -/
inductive Effect
  | prepared (planId phases : ℕ)
  | advanced (planId phase : ℕ)
  | committed (planId : ℕ)
  | cancelled (planId : ℕ)
  | rolledBack (planId : ℕ)
deriving DecidableEq

def Effect.planId : Effect → ℕ
  | .prepared planId _ => planId
  | .advanced planId _ => planId
  | .committed planId => planId
  | .cancelled planId => planId
  | .rolledBack planId => planId

/-- The effects that end a plan. -/
def Effect.terminal : Effect → Bool
  | .prepared _ _ => false
  | .advanced _ _ => false
  | _ => true

/-- An executor, the plans its callers were handed, and the snapshots they took. -/
structure System (W S : Type) where
  executor : Executor W
  history : List Effect
  handed : List (Plan S)
  taken : List (Snapshot S × List Effect)

/-- A call of the executor, or of a callback of a plan that was handed out. -/
inductive Event
  | transfer (request : TransferRequest)
  | prepareAsync (request : TransferRequest)
  | advance (index : ℕ)
  | commit (index : ℕ)
  | cancel (index : ℕ)
  | rollback (index : ℕ)
  | snapshot
  | restore (index : ℕ)

def Event.restores : Event → Bool
  | .restore _ => true
  | _ => false

/-- The plan a callback is about. -/
def Executor.planOf (s : Executor W) (plan : Plan S) : ℕ := (s.stateAt plan.state).planId

/-- The system behind a call, which has an effect only where it returns. -/
def System.answered {α : Type} (s : System W S) (effects : α → List Effect) (plans : α → List (Plan S)) :
    EStateM.Result Raised (Executor W) α → System W S
  | .ok a t => { s with executor := t, history := s.history ++ effects a, handed := s.handed ++ plans a }
  | .error _ t => { s with executor := t }

variable (P : Platform W S) (cfg : Config)

/-- A callback of a plan; a plan has an advance up to its last phase and a commit behind it. -/
def System.call (s : System W S) (plan : Plan S) : Event → Option (System W S)
  | .advance _ => if plan.async ∧ ¬plan.final then
      some (s.answered (fun _ => [.advanced (s.executor.planOf plan) plan.index]) (fun next => [next])
        (advance P cfg plan s.executor)) else none
  | .commit _ => if plan.final then
      some (s.answered (fun done => if done then [.committed (s.executor.planOf plan)] else []) (fun _ => [])
        (commitTransfer P cfg plan s.executor)) else none
  | .cancel _ => if plan.async then
      some (s.answered (fun _ => [.cancelled (s.executor.planOf plan)]) (fun _ => [])
        (cancelTransfer P cfg plan s.executor)) else none
  | .rollback _ => some (s.answered (fun done => if done then [.rolledBack (s.executor.planOf plan)] else [])
      (fun _ => []) (rollbackTransfer P plan s.executor))
  | _ => none

def System.step (s : System W S) : Event → Option (System W S)
  | .transfer request => some (s.answered (fun _ => [.prepared s.executor.nextAsyncPlanId 0]) (fun plan => [plan])
      (transfer P cfg request s.executor))
  | .prepareAsync request => some (s.answered
      (fun plan => [.prepared s.executor.nextAsyncPlanId plan.downstream.length]) (fun plan => [plan])
      (prepareAsync P cfg request s.executor))
  | .snapshot => some { s with taken := s.taken ++ [(s.executor.snapshot P, s.history)] }
  | .restore index => s.taken[index]?.map fun saved =>
      { s with executor := s.executor.restore P saved.1, history := saved.2 }
  | .advance index => s.handed[index]?.bind fun plan => s.call P cfg plan (.advance index)
  | .commit index => s.handed[index]?.bind fun plan => s.call P cfg plan (.commit index)
  | .cancel index => s.handed[index]?.bind fun plan => s.call P cfg plan (.cancel index)
  | .rollback index => s.handed[index]?.bind fun plan => s.call P cfg plan (.rollback index)

def Step (s : System W S) (e : Event) (t : System W S) : Prop := s.step P cfg e = some t

/-- An executor without plans, and nobody holding anything of it. -/
structure Initial (s : System W S) : Prop where
  heap : s.executor.heap = []
  plans : s.executor.plans = .empty
  history : s.history = []
  handed : s.handed = []
  taken : s.taken = []

def Reachable (s : System W S) : Prop := Reached (Step P cfg) Initial s

variable {P cfg} {s t : System W S} {e : Event}

/-! ## The history of a plan -/

/-- What happened to a plan. -/
def about (planId : ℕ) (history : List Effect) : List Effect := history.filter fun e => e.planId = planId

/-- A plan prepared with some phases, of which the first `done` were advanced in order. -/
def opening (planId phases done : ℕ) : List Effect := .prepared planId phases :: (List.range done).map (.advanced planId)

/-- A plan's whole history, up to its end. -/
inductive Ended (planId : ℕ) : List Effect → Prop
  | committed (phases : ℕ) : Ended planId (opening planId phases phases ++ [.committed planId])
  | cancelled (phases done : ℕ) : Ended planId (opening planId phases done ++ [.cancelled planId])
  | rolledBack (phases : ℕ) : Ended planId (opening planId phases 0 ++ [.rolledBack planId])

theorem about_append (p : ℕ) (h h' : List Effect) : about p (h ++ h') = about p h ++ about p h' := List.filter_append ..

@[simp] theorem about_self {p : ℕ} {e : Effect} (h : e.planId = p) : about p [e] = [e] := by simp [about, h]

@[simp] theorem about_other {p : ℕ} {e : Effect} (h : e.planId ≠ p) : about p [e] = [] := by simp [about, h]

theorem opening_succ (p n k : ℕ) : opening p n (k + 1) = opening p n k ++ [.advanced p k] := by
  simp [opening, List.range_succ]

theorem opening_terminal (p n k : ℕ) : (opening p n k).filter Effect.terminal = [] := by
  rw [List.filter_eq_nil_iff]
  intro e he
  obtain rfl | he := List.mem_cons.1 he
  · simp [Effect.terminal]
  · obtain ⟨i, -, rfl⟩ := List.mem_map.1 he
    simp [Effect.terminal]

theorem Ended.terminal {p : ℕ} {h : List Effect} (hend : Ended p h) : (h.filter Effect.terminal).length = 1 := by
  cases hend with
  | committed n => rw [List.filter_append, opening_terminal]; rfl
  | cancelled n k => rw [List.filter_append, opening_terminal]; rfl
  | rolledBack n => rw [List.filter_append, opening_terminal]; rfl

/-- No terminal effect is in an opening. -/
theorem not_mem_opening {p n k : ℕ} {e : Effect} (he : e.terminal = true) : e ∉ opening p n k := by
  intro hmem
  have : e ∈ (opening p n k).filter Effect.terminal := List.mem_filter.2 ⟨hmem, he⟩
  rw [opening_terminal] at this
  cases this

/-- What stands before the commit of a plan. -/
theorem Ended.before_commit {p : ℕ} {h pre post : List Effect} (hend : Ended p h) (hcut : h = pre ++ .committed p :: post) :
    ∃ n, pre = opening p n n := by
  have hmem : Effect.committed p ∈ h := by simp [hcut]
  cases hend with
  | committed n =>
    refine ⟨n, ?_⟩
    obtain ⟨u, hu, hrest⟩ | ⟨u, hu, hrest⟩ := List.append_eq_append_iff.1 hcut
    · cases u with
      | nil => rw [hu, List.append_nil]
      | cons x u => simp at hrest
    · cases u with
      | nil => rw [hu, List.append_nil]
      | cons x u =>
        rw [List.cons_append, List.cons.injEq] at hrest
        obtain ⟨rfl, -⟩ := hrest
        exact absurd (hu ▸ List.mem_append_right pre List.mem_cons_self)
          (not_mem_opening (e := .committed p) rfl)
  | cancelled n k =>
    obtain hopen | hlast := List.mem_append.1 hmem
    · exact absurd hopen (not_mem_opening rfl)
    · simp at hlast
  | rolledBack n =>
    obtain hopen | hlast := List.mem_append.1 hmem
    · exact absurd hopen (not_mem_opening rfl)
    · simp at hlast

/-! ## The table accounts for the history -/

structure Accounts (states : ℕ → Option PlanState) (nextId : ℕ) (history : List Effect) : Prop where
  live : ∀ p st, states p = some st → about p history = opening p st.phaseCount st.phase
  ended : ∀ p, states p = none → about p history = [] ∨ Ended p (about p history)
  fresh : ∀ p, nextId ≤ p → about p history = []

namespace Accounts

variable {states : ℕ → Option PlanState} {nextId nextId' : ℕ} {history : List Effect}

theorem mono (h : Accounts states nextId history) (hle : nextId ≤ nextId') : Accounts states nextId' history :=
  ⟨h.live, h.ended, fun p hp => h.fresh p (hle.trans hp)⟩

/-- An effect on one plan, which the table shows as it says. -/
theorem next {p : ℕ} {e : Effect} {entry : Option PlanState} (h : Accounts states nextId history) (he : e.planId = p)
    (hle : nextId ≤ nextId') (hp : p < nextId')
    (hlive : ∀ st, entry = some st → about p history ++ [e] = opening p st.phaseCount st.phase)
    (hended : entry = none → Ended p (about p history ++ [e])) :
    Accounts (Function.update states p entry) nextId' (history ++ [e]) where
  live := by
    intro q st hst
    rw [Function.update_apply] at hst
    rw [about_append]
    split at hst
    · next hq => rw [hq, about_self he]; exact hlive st hst
    · next hq => rw [about_other (fun h' => hq (h'.symm.trans he)), List.append_nil]; exact h.live q st hst
  ended := by
    intro q hst
    rw [Function.update_apply] at hst
    rw [about_append]
    split at hst
    · next hq => rw [hq, about_self he]; exact .inr (hended hst)
    · next hq => rw [about_other (fun h' => hq (h'.symm.trans he)), List.append_nil]; exact h.ended q hst
  fresh := by
    intro q hq
    have hne : e.planId ≠ q := by omega
    rw [about_append, about_other hne, List.append_nil]
    exact h.fresh q (hle.trans hq)

theorem prepared (h : Accounts states nextId history) (count token : ℕ) :
    Accounts (Function.update states nextId (some ⟨nextId, 0, count, token, false, none⟩)) (nextId + 1)
      (history ++ [.prepared nextId count]) := by
  refine h.next rfl (Nat.le_succ _) (Nat.lt_succ_self _) (fun st hst => ?_) fun hnone => by cases hnone
  cases hst
  rw [h.fresh nextId le_rfl]
  rfl

theorem advanced {p token : ℕ} {st : PlanState} (h : Accounts states nextId history) (hst : states p = some st)
    (hp : p < nextId) (hle : nextId ≤ nextId') :
    Accounts (Function.update states p (some { st with phase := st.phase + 1, phaseToken := token })) nextId'
      (history ++ [.advanced p st.phase]) := by
  refine h.next rfl hle (hp.trans_le hle) (fun st' hst' => ?_) fun hnone => by cases hnone
  cases hst'
  rw [h.live p st hst]
  exact (opening_succ p st.phaseCount st.phase).symm

theorem finished {p : ℕ} {e : Effect} {st : PlanState} (h : Accounts states nextId history) (hst : states p = some st)
    (he : e.planId = p) (hp : p < nextId) (hle : nextId ≤ nextId')
    (hend : Ended p (opening p st.phaseCount st.phase ++ [e])) :
    Accounts (Function.update states p none) nextId' (history ++ [e]) := by
  refine h.next he hle (hp.trans_le hle) (fun st' hst' => by cases hst') fun _ => ?_
  rw [h.live p st hst]
  exact hend

theorem once (h : Accounts states nextId history) (p : ℕ) : ((about p history).filter Effect.terminal).length ≤ 1 := by
  cases hst : states p with
  | some st => rw [h.live p st hst, opening_terminal]; exact Nat.zero_le 1
  | none =>
    obtain hnil | hend := h.ended p hst
    · rw [hnil]; exact Nat.zero_le 1
    · exact hend.terminal.le

theorem before_commit {p : ℕ} {pre post : List Effect} (h : Accounts states nextId history)
    (hcut : history = pre ++ .committed p :: post) : ∃ n, about p pre = opening p n n := by
  have habout : about p history = about p pre ++ .committed p :: about p post := by
    rw [hcut, about_append, show Effect.committed p :: post = [.committed p] ++ post from rfl, about_append,
      @about_self p (.committed p) rfl]
    rfl
  have hmem : Effect.committed p ∈ about p history := by simp [habout]
  cases hst : states p with
  | some st =>
    rw [h.live p st hst] at hmem
    exact absurd hmem (not_mem_opening rfl)
  | none =>
    obtain hnil | hend := h.ended p hst
    · rw [hnil] at hmem
      cases hmem
    · exact hend.before_commit habout

end Accounts

/-! ## Steps -/

/-- A plan in its caller's hands: its state and its token exist. -/
structure Known (s : Executor W) (plan : Plan S) : Prop where
  state : plan.state < s.heap.length
  token : plan.token < s.nextAsyncPhaseToken

theorem Known.grown {s t : Executor W} {plan : Plan S} (h : Known s plan) (hgrown : Extends s t) : Known t plan :=
  ⟨h.state.trans_le hgrown.length, h.token.trans_le hgrown.tokens⟩

structure Consistent (s : System W S) : Prop where
  wf : Wf s.executor
  accounts : Accounts s.executor.states s.executor.nextAsyncPlanId s.history
  handed : ∀ plan ∈ s.handed, Known s.executor plan
  taken : ∀ saved ∈ s.taken, Copied saved.1.asyncPlanStates s.executor.nextAsyncPlanId ∧
    Accounts saved.1.asyncPlanStates.get? s.executor.nextAsyncPlanId saved.2

theorem Initial.consistent (h : Initial s) : Consistent s := by
  have hget : ∀ p, s.executor.plans.get? p = none := fun p => by rw [h.plans]; rfl
  have hstates : s.executor.states = fun _ => none := funext fun p => by rw [Executor.states, hget]; rfl
  refine ⟨⟨fun p r hr => ?_, fun p r hr => ?_, fun p r hr => ?_, fun p r hr => ?_⟩, ?_, ?_, ?_⟩
  · rw [hget] at hr; cases hr
  · rw [hget] at hr; cases hr
  · rw [hget] at hr; cases hr
  · rw [hget] at hr; cases hr
  · rw [hstates, h.history]
    exact ⟨fun p st hst => (by cases hst), fun p _ => .inl rfl, fun p _ => rfl⟩
  · simp [h.handed]
  · simp [h.taken]

/-- What a step that restores nothing does: plan states are as they were, or under a new token. -/
structure Moves (s t : System W S) : Prop where
  grown : Extends s.executor t.executor
  tokens : ∀ p st, t.executor.states p = some st →
    s.executor.states p = some st ∨ s.executor.nextAsyncPhaseToken ≤ st.phaseToken
  handed : ∀ plan ∈ s.handed, plan ∈ t.handed

theorem Copied.mono {states : Dict ℕ PlanState} {n m : ℕ} (h : Copied states n) (hle : n ≤ m) : Copied states m :=
  fun p st hst => ⟨(h p st hst).1, (h p st hst).2.1, (h p st hst).2.2.trans_le hle⟩

/-- The system behind a call that took effect on one plan. -/
theorem Consistent.next {t : Executor W} {p : ℕ} {entry : Option PlanState} {effects : List Effect} {plans : List (Plan S)}
    (h : Consistent s) (hturn : Turns s.executor t (Function.update s.executor.states p entry))
    (haccounts : Accounts (Function.update s.executor.states p entry) t.nextAsyncPlanId (s.history ++ effects))
    (htokens : ∀ st, entry = some st → s.executor.nextAsyncPhaseToken ≤ st.phaseToken)
    (hplans : ∀ plan ∈ plans, Known t plan) :
    Consistent { s with executor := t, history := s.history ++ effects, handed := s.handed ++ plans } ∧
      Moves s { s with executor := t, history := s.history ++ effects, handed := s.handed ++ plans } := by
  refine ⟨⟨hturn.wf, ?_, fun plan hplan => ?_, fun saved hsaved => ?_⟩, hturn.grown, fun q st hst => ?_,
    fun plan hplan => List.mem_append_left _ hplan⟩
  · change Accounts t.states _ _
    rw [hturn.states]
    exact haccounts
  · obtain hold | hnew := List.mem_append.1 hplan
    · exact (h.handed plan hold).grown hturn.grown
    · exact hplans plan hnew
  · obtain ⟨hcopied, hacc⟩ := h.taken saved hsaved
    exact ⟨hcopied.mono hturn.grown.ids, hacc.mono hturn.grown.ids⟩
  · change t.states q = some st at hst
    rw [hturn.states, Function.update_apply] at hst
    split at hst
    · exact .inr (htokens st hst)
    · exact .inl hst

/-- The system behind a call that left the plan states as they were. -/
theorem Consistent.kept {t : Executor W} (h : Consistent s) (hturn : Turns s.executor t s.executor.states) :
    Consistent { s with executor := t } ∧ Moves s { s with executor := t } := by
  refine ⟨⟨hturn.wf, ?_, fun plan hplan => (h.handed plan hplan).grown hturn.grown, fun saved hsaved => ?_⟩, hturn.grown,
    fun q st hst => ?_, fun _ hplan => hplan⟩
  · change Accounts t.states _ _
    rw [hturn.states]
    exact h.accounts.mono hturn.grown.ids
  · obtain ⟨hcopied, hacc⟩ := h.taken saved hsaved
    exact ⟨hcopied.mono hturn.grown.ids, hacc.mono hturn.grown.ids⟩
  · change t.states q = some st at hst
    rw [hturn.states] at hst
    exact .inl hst

theorem Consistent.registered {count : ℕ} {plan : Plan S} {t : Executor W} (h : Consistent s)
    (hreg : Registers s.executor count plan t) :
    Consistent { s with
        executor := t
        history := s.history ++ [.prepared s.executor.nextAsyncPlanId count]
        handed := s.handed ++ [plan] } ∧
      Moves s { s with
        executor := t
        history := s.history ++ [.prepared s.executor.nextAsyncPlanId count]
        handed := s.handed ++ [plan] } := by
  refine h.next hreg.turns ?_ (fun st hst => by cases hst; exact le_rfl) fun plan' hplan => ?_
  · rw [hreg.planId]
    exact h.accounts.prepared count _
  · obtain rfl := List.mem_singleton.1 hplan
    refine ⟨?_, ?_⟩
    · rw [hreg.state]
      exact hreg.place
    · rw [hreg.expects, hreg.token]
      exact Nat.lt_succ_self _

/-- A call that ended its plan. -/
theorem Consistent.finished {plan : Plan S} {st : PlanState} {t : Executor W} {effect : Effect} (h : Consistent s)
    (hholds : Holds s.executor plan st) (he : effect.planId = s.executor.planOf plan)
    (hend : Ended (s.executor.planOf plan) (opening (s.executor.planOf plan) st.phaseCount st.phase ++ [effect]))
    (hturn : Turns s.executor t (Function.update s.executor.states (s.executor.planOf plan) none)) :
    Consistent { s with executor := t, history := s.history ++ [effect], handed := s.handed ++ [] } ∧
      Moves s { s with executor := t, history := s.history ++ [effect], handed := s.handed ++ [] } := by
  obtain ⟨-, -, -, -, -, hknown⟩ := h.wf.states hholds.1
  exact h.next hturn (h.accounts.finished hholds.1 he hknown hturn.grown.ids hend) (fun st hst => by cases hst)
    fun plan hplan => by cases hplan

/-- A call that did nothing. -/
theorem Consistent.idle (h : Consistent s) :
    Consistent { s with history := s.history ++ [], handed := s.handed ++ [] } ∧
      Moves s { s with history := s.history ++ [], handed := s.handed ++ [] } := by
  rw [List.append_nil, List.append_nil]
  exact h.kept ((PlansKept.refl s.executor).turns h.wf)

/-- **A callback** keeps the system consistent. -/
theorem Consistent.call {plan : Plan S} (h : Consistent s) (hplan : plan ∈ s.handed)
    (hs : s.call P cfg plan e = some t) : Consistent t ∧ Moves s t := by
  have hbound := (h.handed plan hplan).state
  cases e with
  | advance index =>
    simp only [System.call] at hs
    split at hs
    · cases hs
      obtain ⟨e, t, ht, hturn⟩ | ⟨next, t, st, ht, hholds, hphase, hturn, hstate, htoken, hlt⟩ :=
        @advance_spec W S P cfg s.executor h.wf plan
      · rw [ht]
        exact h.kept hturn
      · rw [ht]
        obtain ⟨-, -, -, -, -, hknown⟩ := h.wf.states hholds.1
        rw [← hphase] at hturn
        refine h.next hturn ?_ (fun st hst => by cases hst; exact le_rfl) fun plan' hplan' => ?_
        · change Accounts _ _ (s.history ++ [.advanced (s.executor.planOf plan) plan.index])
          rw [← hphase]
          exact h.accounts.advanced hholds.1 hknown hturn.grown.ids
        · obtain rfl := List.mem_singleton.1 hplan'
          refine ⟨?_, htoken ▸ hlt⟩
          rw [hstate]
          exact hbound.trans_le hturn.grown.length
    · cases hs
  | commit index =>
    simp only [System.call] at hs
    split at hs
    · cases hs
      obtain ⟨e, t, ht, hturn⟩ | ht | ⟨t, st, ht, hholds, hphase, hturn⟩ :=
        @commit_spec W S P cfg s.executor h.wf plan hbound
      · rw [ht]
        exact h.kept hturn
      · rw [ht]
        exact h.idle
      · rw [ht]
        refine h.finished hholds rfl ?_ hturn
        rw [hphase]
        exact .committed _
    · cases hs
  | cancel index =>
    simp only [System.call] at hs
    split at hs
    · cases hs
      obtain ⟨e, t, ht, hturn⟩ | ⟨event, t, st, ht, hholds, hturn⟩ := @cancel_spec W S P cfg s.executor h.wf plan hbound
      · rw [ht]
        exact h.kept hturn
      · rw [ht]
        exact h.finished hholds rfl (.cancelled _ _) hturn
    · cases hs
  | rollback index =>
    cases hs
    obtain ⟨e, ht⟩ | ht | ⟨t, st, ht, hholds, hphase, hturn⟩ := @rollback_spec W S P s.executor h.wf plan hbound
    · rw [ht]
      exact h.kept ((PlansKept.refl s.executor).turns h.wf)
    · rw [ht]
      exact h.idle
    · rw [ht]
      refine h.finished hholds rfl ?_ hturn
      rw [hphase]
      exact .rolledBack _
  | transfer request => cases hs
  | prepareAsync request => cases hs
  | snapshot => cases hs
  | restore index => cases hs

/-- The system behind a restore. -/
theorem Consistent.restored {saved : Snapshot S × List Effect} (h : Consistent s) (hsaved : saved ∈ s.taken) :
    Consistent { s with executor := s.executor.restore P saved.1, history := saved.2 } := by
  obtain ⟨hcopied, haccounts⟩ := h.taken saved hsaved
  have hturn := restore_turns (P := P) hcopied
  refine ⟨hturn.wf, ?_, fun plan hplan => (h.handed plan hplan).grown hturn.grown, h.taken⟩
  change Accounts (s.executor.restore P saved.1).states _ _
  rw [hturn.states]
  exact haccounts

/-- **One step**, of any call. -/
theorem Consistent.step (h : Consistent s) (hs : Step P cfg s e t) :
    Consistent t ∧ (e.restores = false → Moves s t) := by
  have hcall : ∀ {index : ℕ} {e : Event}, (s.handed[index]?.bind fun plan => s.call P cfg plan e) = some t →
      Consistent t ∧ Moves s t := by
    intro index e hs
    obtain ⟨plan, hplan, hs⟩ := Option.bind_eq_some_iff.1 hs
    exact h.call (List.mem_of_getElem? hplan) hs
  cases e with
  | transfer request =>
    cases hs
    obtain ⟨e, t, ht, hkept⟩ | ⟨plan, t, ht, hreg⟩ := @transfer_spec W S P cfg s.executor h.wf request
    · rw [ht]
      exact (h.kept (hkept.turns h.wf)).imp_right fun hm _ => hm
    · rw [ht]
      exact (h.registered hreg).imp_right fun hm _ => hm
  | prepareAsync request =>
    cases hs
    obtain ⟨e, t, ht, hkept⟩ | ⟨plan, t, ht, hreg⟩ := @prepareAsync_spec W S P cfg s.executor h.wf request
    · rw [ht]
      exact (h.kept (hkept.turns h.wf)).imp_right fun hm _ => hm
    · rw [ht]
      exact (h.registered hreg).imp_right fun hm _ => hm
  | advance index => exact (hcall hs).imp_right fun hm _ => hm
  | commit index => exact (hcall hs).imp_right fun hm _ => hm
  | cancel index => exact (hcall hs).imp_right fun hm _ => hm
  | rollback index => exact (hcall hs).imp_right fun hm _ => hm
  | snapshot =>
    cases hs
    refine ⟨⟨h.wf, h.accounts, h.handed, fun saved hsaved => ?_⟩, fun _ => ⟨.refl _, fun _ _ => .inl, fun _ => id⟩⟩
    obtain hold | hnew := List.mem_append.1 hsaved
    · exact h.taken saved hold
    · obtain rfl := List.mem_singleton.1 hnew
      refine ⟨h.wf.copied, ?_⟩
      change Accounts s.executor.copyStates.get? _ _
      rw [copyStates_get?]
      exact h.accounts
  | restore index =>
    obtain ⟨saved, hsaved, rfl⟩ := Option.map_eq_some_iff.1 hs
    exact ⟨h.restored (List.mem_of_getElem? hsaved), fun hr => by cases hr⟩

theorem Reachable.consistent (h : Reachable P cfg s) : Consistent s :=
  Reached.keeps h (fun _ hs => hs.consistent) fun _ _ _ hc hs => (hc.step hs).1

/-! ## Runs -/

/-- The plan's phase is not in the table, and no phase to come has its token. -/
structure Apart (s : Executor W) (plan : Plan S) : Prop where
  known : Known s plan
  absent : ∀ st, ¬Holds s plan st

theorem Apart.moves {plan : Plan S} (h : Apart s.executor plan) (hm : Moves s t) : Apart t.executor plan := by
  refine ⟨h.known.grown hm.grown, fun st hholds => ?_⟩
  obtain ⟨hst, htoken⟩ := hholds
  rw [hm.grown.planId plan.state h.known.state] at hst
  obtain hold | hnew := hm.tokens _ st hst
  · exact h.absent st ⟨hold, htoken⟩
  · have := h.known.token
    omega

/-- The plan's phase is in a snapshot: its plan, under its token. -/
def Snapshot.holds (snap : Snapshot S) (planId token : ℕ) : Prop :=
  ∃ st, snap.asyncPlanStates.get? planId = some st ∧ st.phaseToken = token

/-- **One outcome**: in every history a plan ends at most once, and is committed only behind all its
phases; a callback that was handed out before a restore, and whose phase the snapshot does not hold,
does nothing from then on, until another restore. -/
theorem plans_once (h : Reachable P cfg s) :
    (∀ p, ((about p s.history).filter Effect.terminal).length ≤ 1) ∧
    (∀ p pre post, s.history = pre ++ .committed p :: post → ∃ n, about p pre = opening p n n) ∧
    ∀ plan ∈ s.handed, ∀ index saved, s.taken[index]? = some saved →
      ¬saved.1.holds (s.executor.planOf plan) plan.token → ∀ t, Step P cfg s (.restore index) t →
        ∀ events u, (∀ e ∈ events, e.restores = false) → Run (Step P cfg) t events u → Inert P cfg plan u.executor := by
  have hc := h.consistent
  refine ⟨hc.accounts.once, fun p pre post => hc.accounts.before_commit, ?_⟩
  intro plan hplan index saved hsaved hnot t hrestore events u hquiet hrun
  have hct := (hc.step hrestore).1
  obtain ⟨hcopied, -⟩ := hc.taken saved (List.mem_of_getElem? hsaved)
  have hturn := restore_turns (P := P) hcopied
  obtain rfl : { s with executor := s.executor.restore P saved.1, history := saved.2 } = t := by
    have : s.step P cfg (.restore index) = some t := hrestore
    rw [System.step, hsaved] at this
    exact Option.some.inj this
  have happart : Apart (s.executor.restore P saved.1) plan := by
    refine ⟨(hc.handed plan hplan).grown hturn.grown, fun st hholds => hnot ⟨st, ?_, hholds.2⟩⟩
    have hst := hholds.1
    rwa [hturn.states, hturn.grown.planId plan.state (hc.handed plan hplan).state] at hst
  have hkeep := hrun.keeps (I := fun u => Consistent u ∧ Apart u.executor plan)
    (fun u e v he hu hs => ⟨(hu.1.step hs).1, hu.2.moves ((hu.1.step hs).2 (hquiet e he))⟩) ⟨hct, happart⟩
  exact inert_of_not_holds hkeep.1.wf hkeep.2.known.state hkeep.2.absent

/-- Nobody has called the executor yet. -/
def onePageSystem : System ℕ ℕ := ⟨onePage, [], [], []⟩

def onePageSnapshot : System ℕ ℕ := { onePageSystem with taken := [(onePage.snapshot readOnly, [])] }

/-- A snapshot was taken, and a move prepared behind it. -/
def onePageMove : System ℕ ℕ :=
  onePageSnapshot.answered (fun plan => [.prepared 0 plan.downstream.length]) (fun plan => [plan])
    (prepareAsync readOnly compact toSecond onePage)

theorem onePageMove_reachable : Reachable readOnly compact onePageMove :=
  ⟨onePageSystem, [.snapshot, .prepareAsync toSecond], ⟨rfl, rfl, rfl, rfl, rfl⟩, .cons rfl (.single rfl)⟩

theorem onePageMove_taken : onePageMove.taken = [(onePage.snapshot readOnly, [])] := by
  unfold onePageMove
  cases prepareAsync readOnly compact toSecond onePage with
  | ok plan t => rfl
  | error e t => rfl

theorem plans_once_onePageMove : onePageMove.history = [.prepared 0 1] ∧ onePageMove.handed.length = 1 ∧
    (∀ p, ((about p onePageMove.history).filter Effect.terminal).length ≤ 1) ∧
    ∀ plan ∈ onePageMove.handed,
      Inert readOnly compact plan (onePageMove.executor.restore readOnly (onePage.snapshot readOnly)) := by
  obtain ⟨honce, -, hinert⟩ := plans_once onePageMove_reachable
  refine ⟨by decide +kernel, by decide +kernel, honce, fun plan hplan => ?_⟩
  have htaken : onePageMove.taken[0]? = some (onePage.snapshot readOnly, []) := by rw [onePageMove_taken]; rfl
  refine hinert plan hplan 0 _ htaken ?_ { onePageMove with
    executor := onePageMove.executor.restore readOnly (onePage.snapshot readOnly)
    history := [] } ?_ [] _ (by simp) (.nil _)
  · intro hholds
    obtain ⟨st, hst, -⟩ := hholds
    cases hst
  · rw [Step, System.step, htaken]
    rfl

end HeteroSim.Transfer
