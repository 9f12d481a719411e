/-
Credits of outstanding requests (`dram_core.py`): a request is accepted when
the calendar of the device, or of every channel it touches, has room, and its
completion is kept there until the clock of acceptances has passed it. How an
accepted request is executed is a parameter.
-/
import HeteroSim.Credits
import HeteroSim.Dict
import HeteroSim.Raising
import HeteroSim.Task.Channels
import HeteroSim.Task.Fairness
import HeteroSim.Transitions

namespace HeteroSim.Task

open HeteroSim.Address
open HeteroSim.Credits (Grant Books live delay population unfinished)

variable {τ : Type}

/-- The queue and scheduling fields of a core, over the state of the rest. -/
structure Queued (τ : Type) where
  acceptance : ℚ
  inflight : List ℚ
  channelInflight : Dict (ℕ × ℕ) (List ℚ)
  schedulerDirection : Option Operation
  schedulerStreak : ℕ
  rest : τ

/-- What a submission answers of its timing. -/
structure TransactionResult where
  arrival : ℚ
  completion : ℚ
  queueWait : ℚ
  controllerDirectionSwitches : ℕ

/-- A computation on the rest of the state. -/
def onRest {α : Type} (m : EStateM String τ α) : EStateM String (Queued τ) α := fun s =>
  match m s.rest with
  | .ok a t => .ok a { s with rest := t }
  | .error e t => .error e { s with rest := t }

/-- The fields as the controllers above read them; `inner` executes what is
accepted. -/
def queues (inner : Core τ) : Core (Queued τ) where
  acceptance := Queued.acceptance
  inflight := Queued.inflight
  channelInflight channel s := (s.channelInflight.get? channel).getD []
  openRow m s := inner.openRow m s.rest
  schedulerDirection := Queued.schedulerDirection
  schedulerStreak := Queued.schedulerStreak
  submit r := onRest (inner.submit r)
  submitManyOrdered requests := onRest (inner.submitManyOrdered requests)
  executeFrFcfs requests := onRest (inner.executeFrFcfs requests)

namespace Controller

variable (c : Controller) (inner : Core τ)

/-- The completion on every channel's calendar. -/
def recordChannels (effectiveArrival completion : ℚ) (channels : List (ℕ × ℕ)) (d : Dict (ℕ × ℕ) (List ℚ)) :
    Dict (ℕ × ℕ) (List ℚ) :=
  channels.foldl (fun d channel => d.insert channel (live effectiveArrival ((d.get? channel).getD []) ++ [completion])) d

/-- `_submit_validated` -/
def submitValidated (r : AccessRequest) : EStateM String (Queued τ) TransactionResult := do
  let s ← get
  let effectiveArrival := c.admissionTime (queues inner) r 0 s
  let completion ← (queues inner).submit (r.arriving effectiveArrival)
  let after ← get
  set { after with
    acceptance := effectiveArrival
    inflight :=
      if c.geometry.queueScope = QueueScope.device then live effectiveArrival s.inflight ++ [completion] else after.inflight
    channelInflight :=
      if c.geometry.queueScope = QueueScope.device then after.channelInflight
      else recordChannels effectiveArrival completion (dramRequestChannels c.geometry r) after.channelInflight
    schedulerStreak := if after.schedulerDirection = some r.operation then after.schedulerStreak + 1 else 1
    schedulerDirection := some r.operation }
  pure {
    arrival := r.arrival
    completion := completion
    queueWait := effectiveArrival - r.arrival
    controllerDirectionSwitches :=
      if after.schedulerDirection ≠ none ∧ after.schedulerDirection ≠ some r.operation then 1 else 0 }

/-- The queues a request uses: the device's, or its channels'. -/
def queuesOf (r : AccessRequest) : List (Option (ℕ × ℕ)) :=
  if c.geometry.queueScope = .device then [none] else (dramRequestChannels c.geometry r).map some

/-- A submission, and the stays it grants: one if it returns. -/
def Submits (s : Queued τ × List (Grant (Option (ℕ × ℕ)) ℚ)) (r : AccessRequest)
    (s' : Queued τ × List (Grant (Option (ℕ × ℕ)) ℚ)) : Prop :=
  (∃ result, c.submitValidated inner r s.1 = .ok result s'.1 ∧
    s'.2 = s.2 ++ [⟨c.queuesOf r, s'.1.acceptance, result.completion⟩]) ∨
  (∃ error, c.submitValidated inner r s.1 = .error error s'.1 ∧ s'.2 = s.2)

end Controller

/-- A core as it is constructed: nothing accepted. -/
def Fresh (s : Queued τ × List (Grant (Option (ℕ × ℕ)) ℚ)) : Prop :=
  s.1.acceptance = 0 ∧ s.1.inflight = [] ∧ s.1.channelInflight = .empty ∧ s.2 = []

/-- A queue's calendar. -/
def Queued.calendar (s : Queued τ) : Option (ℕ × ℕ) → List ℚ
  | none => s.inflight
  | some channel => (s.channelInflight.get? channel).getD []

namespace Controller

variable {c : Controller} {inner : Core τ} {s : Queued τ}

/-- Acceptance passes over the calendars once. -/
theorem admissionTime_eq (hs : 0 ≤ s.acceptance) (r : AccessRequest) : c.admissionTime (queues inner) r 0 s =
    ((c.queuesOf r).map s.calendar).foldl (delay c.maxOutstandingRequests) (max r.arrival s.acceptance) := by
  unfold admissionTime queuesOf
  have hzero : max ((queues inner).acceptance s) 0 = s.acceptance := max_eq_left hs
  rw [hzero]
  split
  · rfl
  · rw [List.map_map]
    rfl

theorem get?_recordChannels {effectiveArrival completion : ℚ} {channels : List (ℕ × ℕ)} (hn : channels.Nodup)
    (d : Dict (ℕ × ℕ) (List ℚ)) (channel : ℕ × ℕ) :
    (recordChannels effectiveArrival completion channels d).get? channel =
      if channel ∈ channels then some (live effectiveArrival ((d.get? channel).getD []) ++ [completion]) else d.get? channel := by
  induction channels generalizing d with
  | nil => rfl
  | cons first channels ih =>
    obtain ⟨hfirst, hn⟩ := List.nodup_cons.1 hn
    show (recordChannels effectiveArrival completion channels _).get? channel = _
    rw [ih hn, Dict.get?_insert]
    by_cases he : channel = first
    · subst he
      simp [hfirst]
    · simp [he]

variable (c inner) in
/-- What a submission does: it raises without a trace in the queues, or it is
accepted and recorded. -/
theorem submitValidated_cases (hs : 0 ≤ s.acceptance) (r : AccessRequest) :
    (∃ error t, c.submitValidated inner r s = .error error { s with rest := t }) ∨
    ∃ result s', c.submitValidated inner r s = .ok result s' ∧ result.queueWait = s'.acceptance - r.arrival ∧
      s'.acceptance = ((c.queuesOf r).map s.calendar).foldl (delay c.maxOutstandingRequests) (max r.arrival s.acceptance) ∧
      (∀ q ∈ c.queuesOf r, s'.calendar q = live s'.acceptance (s.calendar q) ++ [result.completion]) ∧
      ∀ q, q ∉ c.queuesOf r → s'.calendar q = s.calendar q := by
  unfold submitValidated
  rw [get_then, admissionTime_eq hs]
  generalize htime : ((c.queuesOf r).map s.calendar).foldl (delay c.maxOutstandingRequests) (max r.arrival s.acceptance) = time
  cases hexecute : inner.submit (r.arriving time) s.rest with
  | error error t =>
    refine .inl ⟨error, t, error_bind ?_⟩
    show onRest _ s = _
    rw [onRest, hexecute]
  | ok completion t =>
    have hsubmit : (queues inner).submit (r.arriving time) s = .ok completion { s with rest := t } := by
      show onRest _ s = _
      rw [onRest, hexecute]
    rw [ok_bind hsubmit, get_then, set_then]
    refine .inr ⟨_, _, rfl, rfl, rfl, fun q hq => ?_, fun q hq => ?_⟩
    · unfold queuesOf at hq
      by_cases hdevice : c.geometry.queueScope = QueueScope.device
      · rw [if_pos hdevice] at hq
        obtain rfl := List.mem_singleton.1 hq
        simp only [Queued.calendar, if_pos hdevice]
      · rw [if_neg hdevice] at hq
        obtain ⟨channel, hchannel, rfl⟩ := List.mem_map.1 hq
        simp only [Queued.calendar, if_neg hdevice]
        rw [get?_recordChannels (sorted_dramRequestChannels _ _).1, if_pos hchannel, Option.getD_some]
    · unfold queuesOf at hq
      by_cases hdevice : c.geometry.queueScope = QueueScope.device
      · rw [if_pos hdevice] at hq
        cases q with
        | none => exact absurd (List.mem_singleton.2 rfl) hq
        | some channel => simp only [Queued.calendar, if_pos hdevice]
      · rw [if_neg hdevice] at hq
        cases q with
        | none => simp only [Queued.calendar, if_neg hdevice]
        | some channel =>
          simp only [Queued.calendar, if_neg hdevice]
          have hout : channel ∉ dramRequestChannels c.geometry r := fun hin => hq (List.mem_map_of_mem hin)
          rw [get?_recordChannels (sorted_dramRequestChannels _ _).1, if_neg hout]

/-! ## Histories -/

/-- The queues' books balance, and the clock has not gone back. -/
structure Balanced (c : Controller) (s : Queued τ × List (Grant (Option (ℕ × ℕ)) ℚ)) : Prop where
  clock : 0 ≤ s.1.acceptance
  books : Books c.maxOutstandingRequests s.1.calendar s.1.acceptance s.2

theorem balanced_fresh {s : Queued τ × List (Grant (Option (ℕ × ℕ)) ℚ)} (h : Fresh s) : Balanced c s := by
  obtain ⟨hclock, hinflight, hchannels, hgrants⟩ := h
  have hcalendar : s.1.calendar = fun _ => [] := by
    funext q
    cases q with
    | none => exact hinflight
    | some channel =>
      show (s.1.channelInflight.get? channel).getD [] = []
      rw [hchannels]
      rfl
  refine ⟨hclock.ge, ?_⟩
  rw [hcalendar, hgrants]
  exact Credits.books_nil _ _

theorem Balanced.least {grants : List (Grant (Option (ℕ × ℕ)) ℚ)} (h : Balanced c (s, grants)) (r : AccessRequest) :
    IsLeast {t | r.arrival ≤ t ∧ s.acceptance ≤ t ∧ ∀ q ∈ c.queuesOf r, unfinished q t grants < c.maxOutstandingRequests}
      (((c.queuesOf r).map s.calendar).foldl (delay c.maxOutstandingRequests) (max r.arrival s.acceptance)) := by
  have hleast := h.books.least c.outstanding_pos (le_max_right r.arrival s.acceptance) (c.queuesOf r)
  have hsame : {t | max r.arrival s.acceptance ≤ t ∧ ∀ q ∈ c.queuesOf r, unfinished q t grants < c.maxOutstandingRequests} =
      {t | r.arrival ≤ t ∧ s.acceptance ≤ t ∧ ∀ q ∈ c.queuesOf r, unfinished q t grants < c.maxOutstandingRequests} := by
    ext t
    show _ ∧ _ ↔ _ ∧ _ ∧ _
    rw [max_le_iff, and_assoc]
  rw [hsame] at hleast
  exact hleast

/-- One submission keeps the books. -/
theorem Balanced.submits {s s' : Queued τ × List (Grant (Option (ℕ × ℕ)) ℚ)} (h : Balanced c s) {r : AccessRequest}
    (hstep : c.Submits inner s r s') : Balanced c s' := by
  rcases submitValidated_cases c inner h.clock r with ⟨error, t, herror⟩ | ⟨result, u, hok, -, htime, hin, hout⟩
  · rcases hstep with ⟨_, hok, -⟩ | ⟨_, herror', hgrants⟩
    · cases herror.symm.trans hok
    · obtain ⟨-, hstate⟩ := EStateM.Result.error.inj (herror.symm.trans herror')
      refine ⟨hstate ▸ h.clock, ?_⟩
      rw [hgrants, ← hstate]
      exact h.books
  · rcases hstep with ⟨result', hok', hgrants⟩ | ⟨_, herror, -⟩
    · obtain ⟨rfl, rfl⟩ := EStateM.Result.ok.inj (hok.symm.trans hok')
      have hready := le_max_right r.arrival s.1.acceptance
      refine ⟨?_, ?_⟩
      · have hleast := (h.least r).1
        rw [← htime] at hleast
        exact h.clock.trans hleast.2.1
      · rw [hgrants]
        exact h.books.grant c.outstanding_pos hready htime hin hout
    · cases hok.symm.trans herror

/-- **Credits bound the outstanding requests, and no more.** After every
sequence of submissions, of which some may raise, no queue holds more than
the limit at any instant, requests were accepted in the order of their times,
and the next one is accepted at the least time, not before its arrival nor
the acceptances before it, at which its queues all have room. -/
theorem outstanding_credits (c : Controller) (inner : Core τ) {s : Queued τ} {grants : List (Grant (Option (ℕ × ℕ)) ℚ)}
    (h : Reached (c.Submits inner) Fresh (s, grants)) :
    (∀ q t, population q t grants ≤ c.maxOutstandingRequests) ∧
    grants.Pairwise (fun g g' => g.start ≤ g'.start) ∧ (∀ g ∈ grants, g.start ≤ s.acceptance) ∧
    ∀ r result s', c.submitValidated inner r s = .ok result s' →
      IsLeast {t | r.arrival ≤ t ∧ s.acceptance ≤ t ∧ ∀ q ∈ c.queuesOf r, unfinished q t grants < c.maxOutstandingRequests}
        s'.acceptance ∧ result.queueWait = s'.acceptance - r.arrival := by
  have hbalanced : Balanced c (s, grants) := h.keeps (fun _ => balanced_fresh) fun _ _ _ hs hstep => hs.submits hstep
  refine ⟨hbalanced.books.bounded, hbalanced.books.sorted, hbalanced.books.upTo, fun r result s' hok => ?_⟩
  rcases submitValidated_cases c inner hbalanced.clock r with ⟨error, t, herror⟩ | ⟨_, u, hok', hwait, htime, -⟩
  · cases herror.symm.trans hok
  · obtain ⟨rfl, rfl⟩ := EStateM.Result.ok.inj (hok'.symm.trans hok)
    rw [htime] at hwait ⊢
    exact ⟨hbalanced.least r, hwait⟩

/-- One credit, for the device. -/
def oneCredit : Controller := ⟨oneBank, 2, 1, oneBank_valid, Nat.two_pos, Nat.one_pos⟩

theorem outstanding_credits_fresh : ∃ result s', oneCredit.submitValidated tenNs (burstAt .read 0) ⟨0, [], .empty, none, 0, 0⟩ =
      .ok result s' ∧
    IsLeast {t | 0 ≤ t ∧ 0 ≤ t ∧ ∀ q ∈ oneCredit.queuesOf (burstAt .read 0),
        unfinished q t ([] : List (Grant (Option (ℕ × ℕ)) ℚ)) < 1} s'.acceptance ∧
      result.queueWait = s'.acceptance - 0 :=
  ⟨_, _, rfl, (outstanding_credits oneCredit tenNs (.of_init ⟨rfl, rfl, rfl, rfl⟩)).2.2.2 (burstAt .read 0) _ _ rfl⟩

/-! ## Batches -/

/-- The admission of `run_numeric_many`, for a batch on the device's queue:
the time, and what the queue still holds then. -/
def numericAdmission (limit : ℕ) (arrival acceptance : ℚ) (inflight : List ℚ) : ℚ × List ℚ :=
  let effective := max arrival acceptance
  let remaining := live effective inflight
  if limit ≤ remaining.length then
    let later := max effective (remaining.tail.foldl min (remaining.headD effective))
    (later, live later remaining)
  else (effective, remaining)

/-- **A batch is admitted as its requests would be, one by one.** -/
theorem numericAdmission_eq (c : Controller) (arrival acceptance : ℚ) (inflight : List ℚ) :
    numericAdmission c.maxOutstandingRequests arrival acceptance inflight =
      (c.admitInto (max arrival acceptance) inflight, live (c.admitInto (max arrival acceptance) inflight) inflight) := by
  show _ = (delay c.maxOutstandingRequests _ _, live (delay c.maxOutstandingRequests _ _) _)
  unfold numericAdmission delay
  dsimp only
  split
  · next hfull =>
    obtain ⟨first, rest, hlive⟩ : ∃ first rest, live (max arrival acceptance) inflight = first :: rest := by
      refine List.exists_cons_of_ne_nil fun hnil => ?_
      rw [hnil] at hfull
      exact absurd hfull (Nat.not_le.2 c.outstanding_pos)
    have hmin : (live (max arrival acceptance) inflight).min?.getD (max arrival acceptance) =
        (live (max arrival acceptance) inflight).tail.foldl min ((live (max arrival acceptance) inflight).headD (max arrival acceptance)) := by
      rw [hlive, List.min?_cons', Option.getD_some]
      rfl
    rw [hmin, Credits.live_live (le_max_left _ _)]
  · rfl

end Controller

end HeteroSim.Task
