/-
Replays of traces are shared and always end: a flight is registered as long
as its owner replays, its event is set once, in the step in which the owner
leaves, and what it is set with is the replay if the job's result is the very
object that was replayed.
-/
import HeteroSim.Jobs.Traces
import HeteroSim.Memo

namespace HeteroSim.Jobs

open RunJobManager

variable {limits : Limits} {replayOf : ℕ → String → Built} {page : Json → ℤ → ℤ → Json}

/-! ## Jobs that stay -/

theorem traceResultLocked_iff {m : RunJobManager} {id : String} {result : ℕ} : m.traceResultLocked id = .ok result ↔
    ∃ job, m.jobs.get? id = some job ∧ job.status = .completed ∧
      (job.result = some (.online result) ∨ ∃ object, job.result = some (.fast object (some result))) := by
  unfold traceResultLocked
  split
  · next hnone => simp [hnone]
  next job hget =>
  simp only [hget, Option.some.injEq, exists_eq_left']
  split
  · next hs => simp [hs]
  next hs =>
  rw [not_not] at hs
  simp only [hs, true_and]
  split <;> simp_all

/-- A fast result and the detailed one it carries are two objects. -/
def RunJob.Distinct (job : RunJob) : Prop := ∀ object detailed, job.result = some (.fast object (some detailed)) → object ≠ detailed

/-- The job's result is the object replayed just when it is a plain online one. -/
theorem current_iff {m : RunJobManager} {id : String} {job : RunJob} {result : ℕ} (hr : m.traceResultLocked id = .ok result)
    (hj : m.jobs.get? id = some job) (hd : job.Distinct) :
    job.result.map RunResult.object = some result ↔ ∃ object, job.result = some (.online object) := by
  obtain ⟨job', hj', _, hor⟩ := traceResultLocked_iff.1 hr
  obtain rfl : job = job' := Option.some.inj (hj.symm.trans hj')
  obtain h | ⟨object, h⟩ := hor
  · simp [h, RunResult.object]
  · simp [h, RunResult.object, hd object result h]

/-- A job that was terminal and is still there is as it was. -/
theorem Advances.retained {s s' : System} {e : Event} {id : String} {job' : RunJob} (h : Advances e s s') (hid : id ∈ s.issued)
    (ht : ∀ job, s.manager.jobs.get? id = some job → job.status.terminal = true)
    (hj' : s'.manager.jobs.get? id = some job') : s.manager.jobs.get? id = some job' := by
  cases hj : s.manager.jobs.get? id with
  | none =>
    rw [h.absent hid hj] at hj'
    cases hj'
  | some job =>
    obtain ⟨target, hev, -⟩ := h.evolves
    obtain ⟨job'', hj'', hf⟩ | ⟨hnone, -, -⟩ := hev.follows id job hj
    · obtain rfl : job' = job'' := Option.some.inj (hj'.symm.trans hj'')
      rw [hf.frozen (ht job hj)]
    · rw [hnone] at hj'
      cases hj'

/-! ## The invariant -/

/-- What a flight for the job's batch is set with, once it has been replayed. -/
def settles (replayOf : ℕ → String → Built) (job : RunJob) (result : ℕ) (batchId : String) : Except Raised Json :=
  ((replayOf result batchId).toExcept batchId).bind fun pages =>
    if job.result.map RunResult.object = some result then .ok pages else .error jobNotFound

/-- If the job is still there, it is traced, and it settles the outcome. -/
def Settled (replayOf : ℕ → String → Built) (m : RunJobManager) (jobId batchId : String) (outcome : Except Raised Json) : Prop :=
  ∀ job, m.jobs.get? jobId = some job → ∃ result, m.traceResultLocked jobId = .ok result ∧
    outcome = settles replayOf job result batchId

/-- If the job is still there, its trace is that of the result. -/
def Traces (m : RunJobManager) (jobId : String) (result : ℕ) : Prop :=
  ∀ job, m.jobs.get? jobId = some job → m.traceResultLocked jobId = .ok result

structure Flying (limits : Limits) (replayOf : ℕ → String → Built) (t : Tracing) : Prop where
  consistent : Consistent limits t.system
  paired : List.Forall₂ (fun r c => r.key = (c.jobId, c.batchId)) t.system.replays t.owners
  registered : ∀ key f, t.system.manager.traceInflight.get? key = some f ↔
    ∃ r ∈ t.system.replays, r.key = key ∧ r.flight = f
  distinct : (t.system.replays.map Replay.flight).Nodup
  made : ∀ f, f < t.system.flights ↔ f ∈ t.system.replays.map Replay.flight ∨ f ∈ t.outcomes.keys
  unset : ∀ r ∈ t.system.replays, r.flight ∉ t.outcomes.keys
  begun : ∀ r ∈ t.system.replays, r.key.1 ∈ t.system.issued ∧ Traces t.system.manager r.key.1 r.result
  cached : ∀ id batchId pages, t.system.manager.traceCache.get? (id, batchId) = some pages →
    id ∈ t.system.issued ∧ Settled replayOf t.system.manager id batchId (.ok pages)
  waiting : ∀ w ∈ t.waiters, w.1 < t.system.flights ∧ w.2.jobId ∈ t.system.issued ∧
    (∀ job, t.system.manager.jobs.get? w.2.jobId = some job → job.status.terminal = true) ∧
    (∀ r ∈ t.system.replays, r.flight = w.1 → r.key = (w.2.jobId, w.2.batchId)) ∧
    ∀ outcome, t.outcomes.get? w.1 = some outcome → Settled replayOf t.system.manager w.2.jobId w.2.batchId outcome

theorem Flying.start : Flying limits replayOf .start where
  consistent := .start
  paired := .nil
  registered := by simp [Tracing.start, System.start, RunJobManager.empty]
  distinct := by simp [Tracing.start, System.start]
  made := by simp [Tracing.start, System.start]
  unset := by simp [Tracing.start, System.start]
  begun := by simp [Tracing.start, System.start]
  cached := by simp [Tracing.start, System.start, RunJobManager.empty]
  waiting := by simp [Tracing.start]

theorem traceResultLocked_congr {m m' : RunJobManager} {id : String} (h : m'.jobs.get? id = m.jobs.get? id) :
    m'.traceResultLocked id = m.traceResultLocked id := by
  unfold traceResultLocked
  rw [h]

theorem Traces.terminal {m : RunJobManager} {id : String} {result : ℕ} (h : Traces m id result) :
    ∀ job, m.jobs.get? id = some job → job.status.terminal = true := by
  intro job hj
  obtain ⟨job', hj', hs, _⟩ := traceResultLocked_iff.1 (h job hj)
  obtain rfl : job = job' := Option.some.inj (hj.symm.trans hj')
  rw [hs]
  rfl

theorem Traces.advance {s s' : System} {e : Event} {id : String} {result : ℕ} (h : Traces s.manager id result)
    (hadv : Advances e s s') (hid : id ∈ s.issued) : Traces s'.manager id result := by
  intro job' hj'
  have hj := hadv.retained hid h.terminal hj'
  rw [traceResultLocked_congr (hj'.trans hj.symm)]
  exact h job' hj

theorem Settled.terminal {m : RunJobManager} {id batchId : String} {outcome : Except Raised Json}
    (h : Settled replayOf m id batchId outcome) : ∀ job, m.jobs.get? id = some job → job.status.terminal = true := by
  intro job hj
  obtain ⟨result, hr, _⟩ := h job hj
  exact Traces.terminal (fun _ _ => hr) job hj

theorem Settled.advance {s s' : System} {e : Event} {id batchId : String} {outcome : Except Raised Json}
    (h : Settled replayOf s.manager id batchId outcome) (hadv : Advances e s s') (hid : id ∈ s.issued) :
    Settled replayOf s'.manager id batchId outcome := by
  intro job' hj'
  have hj := hadv.retained hid h.terminal hj'
  rw [traceResultLocked_congr (hj'.trans hj.symm)]
  exact h job' hj

/-! ## Steps -/

/-- A section that is not of traces. -/
theorem Flying.other {t : Tracing} {e : Event} {a : Answer} {s' : System} (h : Flying limits replayOf t)
    (ht : e.ofTrace = false) (hs : t.system.step limits e = some (a, s')) :
    Flying limits replayOf { t with system := s' } := by
  obtain ⟨hc, hadv⟩ := h.consistent.step hs
  obtain ⟨hq, hreplays, hflights⟩ := step_quiet ht hs
  refine ⟨hc, ?_, ?_, ?_, ?_, ?_, ?_, ?_, ?_⟩
  · show List.Forall₂ _ s'.replays _
    rw [hreplays]
    exact h.paired
  · intro key f
    show s'.manager.traceInflight.get? key = some f ↔ ∃ r ∈ s'.replays, _
    rw [hq.inflight, hreplays]
    exact h.registered key f
  · show (s'.replays.map Replay.flight).Nodup
    rw [hreplays]
    exact h.distinct
  · intro f
    show f < s'.flights ↔ f ∈ s'.replays.map Replay.flight ∨ _
    rw [hreplays, hflights]
    exact h.made f
  · intro r hr
    exact h.unset r (hreplays ▸ hr)
  · intro r hr
    obtain ⟨hid, htraces⟩ := h.begun r (hreplays ▸ hr)
    exact ⟨hadv.issued _ hid, htraces.advance hadv hid⟩
  · intro id batchId pages hp
    obtain ⟨hid, hset⟩ := h.cached id batchId pages (hq.cache _ _ hp)
    exact ⟨hadv.issued _ hid, hset.advance hadv hid⟩
  · intro w hw
    obtain ⟨hlt, hid, hterm, hkey, hset⟩ := h.waiting w hw
    exact ⟨hflights ▸ hlt, hadv.issued _ hid, fun job' hj' => hterm job' (hadv.retained hid hterm hj'),
      fun r hr => hkey r (hreplays ▸ hr), fun outcome ho => (hset outcome ho).advance hadv hid⟩

/-- The ways a call's first section goes. -/
theorem traceBegin_cases (s : System) (c : Caller) :
    (∃ e, s.traceBegin c.jobId c.batchId c.offset c.limit = (.raised e, s) ∧
      (tracePageCheck c.batchId c.offset c.limit = .error e ∨ s.manager.traceResultLocked c.jobId = .error e)) ∨
    ∃ result, s.manager.traceResultLocked c.jobId = .ok result ∧
      ((∃ pages, s.manager.traceCache.get? (c.jobId, c.batchId) = some pages ∧
        s.traceBegin c.jobId c.batchId c.offset c.limit = (.trace (.hit pages), { s with manager :=
          { s.manager with traceCache := s.manager.traceCache.moveToEnd (c.jobId, c.batchId) } })) ∨
      (∃ flight, s.manager.traceInflight.get? (c.jobId, c.batchId) = some flight ∧
        s.traceBegin c.jobId c.batchId c.offset c.limit = (.trace (.waits flight), s)) ∨
      (s.manager.traceInflight.get? (c.jobId, c.batchId) = none ∧
        s.traceBegin c.jobId c.batchId c.offset c.limit =
          (.trace (.owner ⟨(c.jobId, c.batchId), result, s.flights⟩), { s with
            manager := { s.manager with
              traceInflight := s.manager.traceInflight.insert (c.jobId, c.batchId) s.flights }
            replays := ⟨(c.jobId, c.batchId), result, s.flights⟩ :: s.replays
            flights := s.flights + 1 }))) := by
  unfold System.traceBegin
  cases hcheck : tracePageCheck c.batchId c.offset c.limit with
  | error e => exact .inl ⟨e, rfl, .inl rfl⟩
  | ok u =>
    cases hr : s.manager.traceResultLocked c.jobId with
    | error e => exact .inl ⟨e, by simp [RunJobManager.traceBegin, hr, answer], .inr rfl⟩
    | ok result =>
      refine .inr ⟨result, rfl, ?_⟩
      cases hcache : s.manager.traceCache.get? (c.jobId, c.batchId) with
      | some pages => exact .inl ⟨pages, rfl, by simp [RunJobManager.traceBegin, hr, hcache, answer]⟩
      | none =>
        cases hflight : s.manager.traceInflight.get? (c.jobId, c.batchId) with
        | some flight => exact .inr (.inl ⟨flight, rfl, by simp [RunJobManager.traceBegin, hr, hcache, hflight, answer]⟩)
        | none => exact .inr (.inr ⟨rfl, by simp [RunJobManager.traceBegin, hr, hcache, hflight]⟩)

theorem Flying.begin {t : Tracing} (h : Flying limits replayOf t) (c : Caller) : Flying limits replayOf (t.begin page c).2 := by
  have hc : Consistent limits (t.system.traceBegin c.jobId c.batchId c.offset c.limit).2 :=
    (h.consistent.step (e := .traceBegin c.jobId c.batchId c.offset c.limit) rfl).1
  unfold Tracing.begin
  obtain ⟨e, heq, _⟩ | ⟨result, hr, ⟨pages, hp, heq⟩ | ⟨flight, hf, heq⟩ | ⟨hnone, heq⟩⟩ := traceBegin_cases t.system c
  · rw [heq]
    exact h
  · rw [heq] at hc ⊢
    refine { h with consistent := hc, cached := fun id batchId pages hget => ?_ }
    rw [show (t.system.manager.traceCache.moveToEnd (c.jobId, c.batchId)).get? (id, batchId) = _ from Memo.get?_moveToEnd _ _ _] at hget
    exact h.cached id batchId pages hget
  · rw [heq] at hc ⊢
    refine { h with waiting := fun w hw => ?_ }
    obtain hw | hw := List.mem_append.1 hw
    · exact h.waiting w hw
    obtain rfl := List.mem_singleton.1 hw
    obtain ⟨r, hmem, hkey, rfl⟩ := (h.registered _ _).1 hf
    obtain ⟨hid, htraces⟩ := h.begun r hmem
    have hjob : r.key.1 = c.jobId := by rw [hkey]
    rw [hjob] at hid htraces
    refine ⟨(h.made _).2 (.inl (List.mem_map_of_mem hmem)), hid, htraces.terminal, fun r' hr' hfl => ?_, fun outcome ho => ?_⟩
    · rw [List.inj_on_of_nodup_map h.distinct hr' hmem hfl]
      exact hkey
    · exact absurd (Dict.mem_keys_of_get? ho) (h.unset r hmem)
  · rw [heq] at hc ⊢
    obtain ⟨job, hj, hstatus, _⟩ := traceResultLocked_iff.1 hr
    have hfresh : t.system.flights ∉ t.system.replays.map Replay.flight := fun hin =>
      lt_irrefl _ ((h.made _).2 (.inl hin))
    refine ⟨hc, .cons rfl h.paired, fun key f => ?_, List.nodup_cons.2 ⟨hfresh, h.distinct⟩, fun f => ?_, ?_, ?_,
      h.cached, fun w hw => ?_⟩
    · show (t.system.manager.traceInflight.insert (c.jobId, c.batchId) t.system.flights).get? key = some f ↔ _
      rw [Dict.get?_insert]
      by_cases hk : key = (c.jobId, c.batchId)
      · subst hk
        rw [if_pos rfl, List.exists_mem_cons_iff]
        have hno : ¬∃ r ∈ t.system.replays, r.key = (c.jobId, c.batchId) ∧ r.flight = f := fun hex => by
          rw [(h.registered _ f).2 hex] at hnone
          cases hnone
        simp [hno]
      · rw [if_neg hk, List.exists_mem_cons_iff, h.registered]
        simp [Ne.symm hk]
    · show f < t.system.flights + 1 ↔ f ∈ t.system.flights :: t.system.replays.map Replay.flight ∨ f ∈ t.outcomes.keys
      rw [List.mem_cons, or_assoc, ← h.made f]
      omega
    · intro r hmem
      obtain rfl | hmem := List.mem_cons.1 hmem
      · exact fun hin => lt_irrefl _ ((h.made _).2 (.inr hin))
      · exact h.unset r hmem
    · intro r hmem
      obtain rfl | hmem := List.mem_cons.1 hmem
      · exact ⟨h.consistent.issued _ job hj, fun _ _ => hr⟩
      · exact h.begun r hmem
    · obtain ⟨hlt, hid, hterm, hkey, hset⟩ := h.waiting w hw
      refine ⟨Nat.lt_succ_of_lt hlt, hid, hterm, fun r hmem hfl => ?_, hset⟩
      obtain rfl | hmem := List.mem_cons.1 hmem
      · exact absurd hfl.symm hlt.ne
      · exact hkey r hmem hfl

theorem mem_eraseIdx_of_nodup {α β : Type} {l : List α} {f : α → β} (hn : (l.map f).Nodup) {i : ℕ} {a : α} (hi : l[i]? = some a)
    (b : α) : b ∈ l.eraseIdx i ↔ b ∈ l ∧ f b ≠ f a := by
  induction l generalizing i with
  | nil => cases hi
  | cons c l ih =>
    obtain ⟨hc, hn⟩ := List.nodup_cons.1 hn
    cases i with
    | zero =>
      cases hi
      rw [List.eraseIdx_cons_zero, List.mem_cons]
      constructor
      · intro hb
        exact ⟨.inr hb, fun he => hc (he ▸ List.mem_map_of_mem hb)⟩
      · rintro ⟨rfl | hb, hne⟩
        · exact absurd rfl hne
        · exact hb
    | succ i =>
      have hi : l[i]? = some a := by simpa using hi
      rw [List.eraseIdx_cons_succ, List.mem_cons, List.mem_cons, ih hn hi]
      have hca : f c ≠ f a := fun he => hc (he ▸ List.mem_map_of_mem (List.mem_of_getElem? hi))
      constructor
      · rintro (rfl | ⟨hb, hne⟩)
        · exact ⟨.inl rfl, hca⟩
        · exact ⟨.inr hb, hne⟩
      · rintro ⟨rfl | hb, hne⟩
        · exact .inl rfl
        · exact .inr ⟨hb, hne⟩

/-- What the end of a replay gives, if the job is still there. -/
theorem traceEnd_settled {m : RunJobManager} {r : Replay} (h : Traces m r.key.1 r.result) :
    Settled replayOf m r.key.1 r.key.2 (m.traceEnd limits r (replayOf r.result r.key.2)).1 := by
  intro job hj
  refine ⟨r.result, h job hj, ?_⟩
  obtain ⟨job', hj', hs, _⟩ := traceResultLocked_iff.1 (h job hj)
  obtain rfl : job = job' := Option.some.inj (hj.symm.trans hj')
  have hcur : m.isCurrent r = decide (job.result.map RunResult.object = some r.result) := by
    simp [isCurrent, hj, hs]
  cases hb : (replayOf r.result r.key.2).toExcept r.key.2 with
  | error e => simp [traceEnd, settles, hb, Except.bind]
  | ok pages => simp [traceEnd, settles, hb, hcur, Except.bind]

/-- A replay enters the cache with its outcome only. -/
theorem traceEnd_cache {m : RunJobManager} {r : Replay} {built : Built} {key : String × String} {pages : Json}
    (h : (m.traceEnd limits r built).2.traceCache.get? key = some pages) :
    m.traceCache.get? key = some pages ∨ key = r.key ∧ (m.traceEnd limits r built).1 = .ok pages := by
  simp only [traceEnd] at h ⊢
  split at h
  · exact .inl h
  next own hown =>
  split at h
  · exact .inl h
  · have hmoved := Dict.get?_eq_some.2 (List.mem_of_mem_drop (Dict.get?_eq_some.1 h))
    rw [Memo.get?_moveToEnd, Dict.get?_insert] at hmoved
    split at hmoved
    · next hk => exact .inr ⟨hk, by rw [hown, Option.some.inj hmoved]⟩
    · exact .inl hmoved

theorem Flying.finish {t : Tracing} (h : Flying limits replayOf t) {index : ℕ} {r : Replay} {c : Caller}
    (hr : t.system.replays[index]? = some r) : Flying limits replayOf (t.finish limits replayOf page index r c).2 := by
  have hmem := List.mem_of_getElem? hr
  have hin := mem_eraseIdx_of_nodup h.distinct hr
  obtain ⟨hid, htraces⟩ := h.begun r hmem
  have hended : Settled replayOf t.system.manager r.key.1 r.key.2
    (t.system.manager.traceEnd limits r (replayOf r.result r.key.2)).1 := traceEnd_settled htraces
  have hinflight : t.system.manager.traceInflight.get? r.key = some r.flight := (h.registered _ _).2 ⟨r, hmem, rfl, rfl⟩
  refine ⟨?_, ?_, fun key f => ?_, ?_, fun f => ?_, fun r' hr' => ?_, fun r' hr' => ?_, fun id batchId pages hp => ?_,
    fun w hw => ?_⟩
  · exact (h.consistent.step (e := .traceEnd index (replayOf r.result r.key.2)) (by rw [System.step, hr]; rfl)).1
  · show List.Forall₂ _ (t.system.replays.eraseIdx index) (t.owners.eraseIdx index)
    rw [List.eraseIdx_eq_take_drop_succ, List.eraseIdx_eq_take_drop_succ]
    exact List.rel_append (List.forall₂_take index h.paired) (List.forall₂_drop (index + 1) h.paired)
  · show (if t.system.manager.traceInflight.get? r.key = some r.flight then t.system.manager.traceInflight.erase r.key
        else t.system.manager.traceInflight).get? key = some f ↔ ∃ r' ∈ t.system.replays.eraseIdx index, _
    rw [if_pos hinflight, Dict.get?_erase]
    split
    · next hk =>
      subst hk
      constructor
      · intro hf
        cases hf
      · intro hex
        obtain ⟨r', hr', hkey, _⟩ := hex
        obtain ⟨hold, hne⟩ := (hin r').1 hr'
        have := (h.registered _ _).2 ⟨r', hold, hkey, rfl⟩
        rw [hinflight] at this
        exact absurd (Option.some.inj this).symm hne
    · next hk =>
      rw [h.registered]
      refine exists_congr fun r' => ?_
      rw [hin r', and_assoc]
      refine and_congr_right fun hold => ?_
      constructor
      · intro hf
        refine ⟨fun hfl => ?_, hf⟩
        rw [List.inj_on_of_nodup_map h.distinct hold hmem hfl] at hf
        exact hk hf.1.symm
      · exact And.right
  · exact h.distinct.sublist ((List.eraseIdx_sublist _ _).map _)
  · show f < t.system.flights ↔ f ∈ (t.system.replays.eraseIdx index).map Replay.flight ∨ f ∈ (t.outcomes.insert r.flight _).keys
    rw [h.made f, Dict.mem_keys_insert, List.mem_map, List.mem_map]
    constructor
    · rintro (⟨r', hr', rfl⟩ | hf)
      · by_cases hfl : r'.flight = r.flight
        · exact .inr (.inl hfl)
        · exact .inl ⟨r', (hin r').2 ⟨hr', hfl⟩, rfl⟩
      · exact .inr (.inr hf)
    · rintro (⟨r', hr', rfl⟩ | rfl | hf)
      · exact .inl ⟨r', ((hin r').1 hr').1, rfl⟩
      · exact .inl ⟨r, hmem, rfl⟩
      · exact .inr hf
  · obtain ⟨hold, hne⟩ := (hin r').1 hr'
    show r'.flight ∉ (t.outcomes.insert r.flight _).keys
    rw [Dict.mem_keys_insert, not_or]
    exact ⟨hne, h.unset r' hold⟩
  · exact h.begun r' ((hin r').1 hr').1
  · obtain hp | ⟨hkey, hout⟩ := traceEnd_cache hp
    · exact h.cached id batchId pages hp
    · rw [← hout]
      have hjob : id = r.key.1 := congrArg Prod.fst hkey
      have hbatch : batchId = r.key.2 := congrArg Prod.snd hkey
      rw [hjob, hbatch]
      exact ⟨hid, hended⟩
  · obtain ⟨hlt, hjob, hterm, hkey, hset⟩ := h.waiting w hw
    refine ⟨hlt, hjob, hterm, fun r' hr' => hkey r' ((hin r').1 hr').1, fun outcome ho => ?_⟩
    replace ho : (t.outcomes.insert r.flight (t.system.manager.traceEnd limits r (replayOf r.result r.key.2)).1).get? w.1 =
      some outcome := ho
    rw [Dict.get?_insert] at ho
    split at ho
    · next hfl =>
      cases ho
      have hsame := hkey r hmem hfl.symm
      rw [← show r.key.1 = w.2.jobId from congrArg Prod.fst hsame, ← show r.key.2 = w.2.batchId from congrArg Prod.snd hsame]
      exact hended
    · exact hset outcome ho

theorem Flying.wake {t : Tracing} (h : Flying limits replayOf t) (index : ℕ) :
    Flying limits replayOf { t with waiters := t.waiters.eraseIdx index } :=
  { h with waiting := fun w hw => h.waiting w (List.mem_of_mem_eraseIdx hw) }

theorem Flying.step {t t' : Tracing} {e : TraceEvent} (h : Flying limits replayOf t)
    (hs : TraceStep limits replayOf page t e t') : Flying limits replayOf t' := by
  obtain ⟨reply, hs⟩ := hs
  cases e with
  | other e =>
    simp only [Tracing.step] at hs
    split at hs
    · cases hs
    · next ht =>
      obtain ⟨next, hnext, hs⟩ := Option.map_eq_some_iff.1 hs
      cases hs
      exact h.other (Bool.eq_false_of_not_eq_true ht) hnext
  | begin c =>
    have heq : t' = (t.begin page c).2 := congrArg Prod.snd (Option.some.inj hs).symm
    rw [heq]
    exact h.begin c
  | finish index =>
    obtain ⟨r, hr, hs⟩ := Option.bind_eq_some_iff.1 hs
    obtain ⟨c, _, hs⟩ := Option.map_eq_some_iff.1 hs
    cases hs
    exact h.finish hr
  | wake index =>
    obtain ⟨w, _, hs⟩ := Option.bind_eq_some_iff.1 hs
    obtain ⟨outcome, _, hs⟩ := Option.map_eq_some_iff.1 hs
    cases hs
    exact h.wake index

theorem Traced.flying {t : Tracing} (h : Traced limits replayOf page t) : Flying limits replayOf t :=
  Reached.keeps h (fun _ ht => ht ▸ .start) fun _ _ _ => Flying.step

/-! ## What every caller gets -/

/-- A waiter's flight has been set, or its owner can leave and sets it. -/
theorem Flying.woken {t : Tracing} (h : Flying limits replayOf t) {i : ℕ} {w : ℕ × Caller} (hw : t.waiters[i]? = some w) :
    (∃ outcome, t.outcomes.get? w.1 = some outcome ∧ t.step limits replayOf page (.wake i) =
      some (some (w.2.returns page outcome), { t with waiters := t.waiters.eraseIdx i })) ∨
    t.outcomes.get? w.1 = none ∧ ∃ k reply t' outcome, t.step limits replayOf page (.finish k) = some (reply, t') ∧
      t'.outcomes.get? w.1 = some outcome ∧ t'.waiters = t.waiters := by
  cases ho : t.outcomes.get? w.1 with
  | some outcome => exact .inl ⟨outcome, rfl, by rw [Tracing.step, hw, Option.bind_some, ho]; rfl⟩
  | none =>
    refine .inr ⟨rfl, ?_⟩
    obtain hin | hin := (h.made w.1).1 (h.waiting w (List.mem_of_getElem? hw)).1
    · obtain ⟨r, hr, hfl⟩ := List.mem_map.1 hin
      obtain ⟨k, hk, hget⟩ := List.getElem_of_mem hr
      have hk' : k < t.owners.length := h.paired.length_eq ▸ hk
      have hreplay : t.system.replays[k]? = some r := by rw [List.getElem?_eq_getElem hk, hget]
      have howner : t.owners[k]? = some t.owners[k] := List.getElem?_eq_getElem hk'
      refine ⟨k, some (t.finish limits replayOf page k r t.owners[k]).1, (t.finish limits replayOf page k r t.owners[k]).2,
        (t.system.manager.traceEnd limits r (replayOf r.result r.key.2)).1, ?_, ?_, rfl⟩
      · rw [Tracing.step, hreplay, Option.bind_some, howner]
        rfl
      · show (t.outcomes.insert r.flight _).get? w.1 = _
        rw [← hfl, Dict.get?_insert_self]
    · exact absurd hin (Dict.get?_eq_none.1 ho)

/-- What a flight was set with stays. -/
theorem Flying.once {t t' : Tracing} {e : TraceEvent} {reply : Option Return} (h : Flying limits replayOf t)
    (hs : t.step limits replayOf page e = some (reply, t')) {flight : ℕ} {outcome : Except Raised Json}
    (ho : t.outcomes.get? flight = some outcome) : t'.outcomes.get? flight = some outcome := by
  cases e with
  | other e =>
    simp only [Tracing.step] at hs
    split at hs
    · cases hs
    · obtain ⟨next, _, hs⟩ := Option.map_eq_some_iff.1 hs
      cases hs
      exact ho
  | begin c =>
    have heq : t' = (t.begin page c).2 := congrArg Prod.snd (Option.some.inj hs).symm
    rw [heq, Tracing.begin]
    split <;> exact ho
  | finish index =>
    obtain ⟨r, hr, hs⟩ := Option.bind_eq_some_iff.1 hs
    obtain ⟨c, _, hs⟩ := Option.map_eq_some_iff.1 hs
    cases hs
    show (t.outcomes.insert r.flight _).get? flight = some outcome
    rw [Dict.get?_insert_of_ne, ho]
    rintro rfl
    exact h.unset r (List.mem_of_getElem? hr) (Dict.mem_keys_of_get? ho)
  | wake index =>
    obtain ⟨w, _, hs⟩ := Option.bind_eq_some_iff.1 hs
    obtain ⟨_, _, hs⟩ := Option.map_eq_some_iff.1 hs
    cases hs
    exact ho

/-- The page of a replay that succeeds goes to the caller just when the job's
result is a plain online one. -/
theorem Settled.page_iff {m : RunJobManager} {c : Caller} {outcome : Except Raised Json} {job : RunJob} {result : ℕ} {pages : Json}
    (h : Settled replayOf m c.jobId c.batchId outcome) (hj : m.jobs.get? c.jobId = some job)
    (hr : m.traceResultLocked c.jobId = .ok result) (hp : replayOf result c.batchId = .replay pages) (hd : job.Distinct) :
    (c.returns page outcome).outcome = .ok (page pages c.offset c.limit) ↔ ∃ object, job.result = some (.online object) := by
  obtain ⟨result', hr', rfl⟩ := h job hj
  obtain rfl : result = result' := Except.ok.inj (hr.symm.trans hr')
  rw [← current_iff hr hj hd]
  simp only [Caller.returns, settles, hp, Built.toExcept, Except.bind]
  by_cases hcur : job.result.map RunResult.object = some result
  · rw [if_pos hcur]
    exact ⟨fun _ => hcur, fun _ => rfl⟩
  · rw [if_neg hcur]
    exact ⟨fun he => (by cases he), fun he => absurd he hcur⟩

theorem Flying.page_iff {t t' : Tracing} {e : TraceEvent} {ret : Return} (h : Flying limits replayOf t)
    (hs : t.step limits replayOf page e = some (some ret, t')) {job : RunJob} {result : ℕ} {pages : Json}
    (hj : t.system.manager.jobs.get? ret.caller.jobId = some job)
    (hr : t.system.manager.traceResultLocked ret.caller.jobId = .ok result)
    (hcheck : tracePageCheck ret.caller.batchId ret.caller.offset ret.caller.limit = .ok ())
    (hp : replayOf result ret.caller.batchId = .replay pages) (hd : job.Distinct) :
    ret.outcome = .ok (page pages ret.caller.offset ret.caller.limit) ↔ ∃ object, job.result = some (.online object) := by
  cases e with
  | other e =>
    simp only [Tracing.step] at hs
    split at hs
    · cases hs
    · obtain ⟨next, _, hs⟩ := Option.map_eq_some_iff.1 hs
      cases hs
  | begin c =>
    have heq : (t.begin page c).1 = some ret := congrArg Prod.fst (Option.some.inj hs)
    unfold Tracing.begin at heq
    obtain ⟨e, hbegin, hor⟩ | ⟨_, _, ⟨cached, hc, hbegin⟩ | ⟨_, _, hbegin⟩ | ⟨_, hbegin⟩⟩ := traceBegin_cases t.system c
    · rw [hbegin] at heq
      cases heq
      obtain he | he := hor
      · cases hcheck.symm.trans he
      · cases hr.symm.trans he
    · rw [hbegin] at heq
      cases heq
      exact (h.cached _ _ _ hc).2.page_iff hj hr hp hd
    · rw [hbegin] at heq
      cases heq
    · rw [hbegin] at heq
      cases heq
  | finish index =>
    obtain ⟨r, hreplay, hs⟩ := Option.bind_eq_some_iff.1 hs
    obtain ⟨c, howner, hs⟩ := Option.map_eq_some_iff.1 hs
    cases hs
    have hkey : r.key = (c.jobId, c.batchId) := by
      obtain ⟨hi, rfl⟩ := List.getElem?_eq_some_iff.1 hreplay
      obtain ⟨hi', rfl⟩ := List.getElem?_eq_some_iff.1 howner
      exact h.paired.get hi hi'
    have hset : Settled replayOf t.system.manager r.key.1 r.key.2
        (t.system.manager.traceEnd limits r (replayOf r.result r.key.2)).1 :=
      traceEnd_settled (h.begun r (List.mem_of_getElem? hreplay)).2
    have hsame : Settled replayOf t.system.manager c.jobId c.batchId
        (t.system.manager.traceEnd limits r (replayOf r.result r.key.2)).1 := by
      rw [← show r.key.1 = c.jobId from congrArg Prod.fst hkey, ← show r.key.2 = c.batchId from congrArg Prod.snd hkey]
      exact hset
    exact hsame.page_iff hj hr hp hd
  | wake index =>
    obtain ⟨w, hw, hs⟩ := Option.bind_eq_some_iff.1 hs
    obtain ⟨outcome, ho, hs⟩ := Option.map_eq_some_iff.1 hs
    cases hs
    obtain ⟨_, _, _, _, hset⟩ := h.waiting w (List.mem_of_getElem? hw)
    exact (hset outcome ho).page_iff hj hr hp hd

/-- **Single-flight replays.** In every state some interleaving reaches: a
waiting call can return, or the owner of its flight can leave and sets the
outcome; an outcome stays as it was set; a flight is registered only while its
owner replays; and a call on a completed job that is still there, whose replay
succeeds, returns its page just when the job's result is a plain online one. -/
theorem tracePage_singleFlight {t : Tracing} (h : Traced limits replayOf page t) :
    (∀ i w, t.waiters[i]? = some w →
      (∃ outcome, t.outcomes.get? w.1 = some outcome ∧ t.step limits replayOf page (.wake i) =
        some (some (w.2.returns page outcome), { t with waiters := t.waiters.eraseIdx i })) ∨
      t.outcomes.get? w.1 = none ∧ ∃ k reply t' outcome, t.step limits replayOf page (.finish k) = some (reply, t') ∧
        t'.outcomes.get? w.1 = some outcome ∧ t'.waiters = t.waiters) ∧
    (∀ e reply t', t.step limits replayOf page e = some (reply, t') → ∀ flight outcome,
      t.outcomes.get? flight = some outcome → t'.outcomes.get? flight = some outcome) ∧
    (∀ key flight, t.system.manager.traceInflight.get? key = some flight →
      ∃ r ∈ t.system.replays, r.key = key ∧ r.flight = flight) ∧
    (∀ e ret t', t.step limits replayOf page e = some (some ret, t') → ∀ job result pages,
      t.system.manager.jobs.get? ret.caller.jobId = some job → job.Distinct →
      t.system.manager.traceResultLocked ret.caller.jobId = .ok result →
      tracePageCheck ret.caller.batchId ret.caller.offset ret.caller.limit = .ok () →
      replayOf result ret.caller.batchId = .replay pages →
      (ret.outcome = .ok (page pages ret.caller.offset ret.caller.limit) ↔
        ∃ object, job.result = some (.online object))) := by
  have hf := h.flying
  exact ⟨fun i w hw => hf.woken hw, fun e reply t' hs flight outcome ho => hf.once hs ho,
    fun key flight hk => (hf.registered key flight).1 hk,
    fun e ret t' hs job result pages hj hd hr hcheck hp => hf.page_iff hs hj hr hcheck hp hd⟩

/-! ## Runs on an event list -/

/-- The calls and sections of a list of events. -/
def runTraces (limits : Limits) (replayOf : ℕ → String → Built) (page : Json → ℤ → ℤ → Json) : Tracing → List TraceEvent → Option Tracing
  | t, [] => some t
  | t, e :: es => (t.step limits replayOf page e).bind fun next => runTraces limits replayOf page next.2 es

theorem traced_of_runTraces {es : List TraceEvent} {t t' : Tracing} (h : runTraces limits replayOf page t es = some t')
    (ht : Traced limits replayOf page t) : Traced limits replayOf page t' := by
  induction es generalizing t with
  | nil =>
    cases h
    exact ht
  | cons e es ih =>
    obtain ⟨next, hstep, hrest⟩ := Option.bind_eq_some_iff.1 h
    exact ih hrest (ht.run (.single ⟨next.1, hstep⟩))

/-- Every batch replays to the same pages, of which a page shows its offset. -/
def onePage (_ : ℕ) (_ : String) : Built := .replay .null

def pageOffset (_ : Json) (offset _ : ℤ) : Json := .number offset

/-- A job completes with the result; one call replays its batch, another waits. -/
def completedJob (result : RunResult) : List TraceEvent :=
  [.other (.submit none), .other (.enqueue 0 ⟨.null, "exact", none⟩ "a" "t0" .accepted), .other (.start "t1" "a"),
    .other (.completed "t2" "a" .null result), .begin ⟨"a", "batch", 3, 10⟩, .begin ⟨"a", "batch", 5, 10⟩]

/-- What is handed out for the job and what its result is when the owner ends, and the owner's return. -/
def ownerEnds (result : RunResult) : Option ((Except Raised ℕ × Option (Option RunResult)) × Caller × Except Raised Json) :=
  (runTraces oneKept onePage pageOffset .start (completedJob result)).bind fun t =>
    (t.step oneKept onePage pageOffset (.finish 0)).bind fun next => next.1.map fun ret =>
      ((t.system.manager.traceResultLocked "a", (t.system.manager.jobs.get? "a").map RunJob.result), ret.caller, ret.outcome)

theorem of_ownerEnds {result : RunResult} {handed : Except Raised ℕ} {stored : Option (Option RunResult)} {c : Caller}
    {outcome : Except Raised Json} (h : ownerEnds result = some ((handed, stored), c, outcome)) :
    ∃ t t', Traced oneKept onePage pageOffset t ∧
      t.step oneKept onePage pageOffset (.finish 0) = some (some ⟨c, outcome⟩, t') ∧
      t.system.manager.traceResultLocked "a" = handed ∧ (t.system.manager.jobs.get? "a").map RunJob.result = stored := by
  obtain ⟨t, ht, h⟩ := Option.bind_eq_some_iff.1 h
  obtain ⟨⟨reply, t'⟩, hs, h⟩ := Option.bind_eq_some_iff.1 h
  obtain ⟨ret, hret, h⟩ := Option.map_eq_some_iff.1 h
  cases hret
  cases h
  exact ⟨t, t', traced_of_runTraces ht (.of_init rfl), hs, rfl, rfl⟩

/-- The owner on a plain online result gets its page. -/
theorem tracePage_singleFlight_online : ∃ t ret t', Traced oneKept onePage pageOffset t ∧
    t.step oneKept onePage pageOffset (.finish 0) = some (some ret, t') ∧ ret.outcome = .ok (.number 3) := by
  have h : ownerEnds (.online 7) = some ((.ok 7, some (some (.online 7))), ⟨"a", "batch", 3, 10⟩, .ok (.number 3)) := by
    decide +kernel
  obtain ⟨t, t', ht, hs, hr, hstored⟩ := of_ownerEnds h
  obtain ⟨job, hj, hresult⟩ := Option.map_eq_some_iff.1 hstored
  refine ⟨t, _, t', ht, hs, ?_⟩
  exact ((tracePage_singleFlight ht).2.2.2 _ _ _ hs job 7 .null hj (by simp [RunJob.Distinct, hresult]) hr
    (by decide) rfl).2 ⟨7, hresult⟩

/-- On a fast result the replay of its detailed result is made and thrown away:
the owner is told that there is no such job. -/
theorem tracePage_fast_refused : ∃ t ret t' job, Traced oneKept onePage pageOffset t ∧
    t.step oneKept onePage pageOffset (.finish 0) = some (some ret, t') ∧
    t.system.manager.jobs.get? ret.caller.jobId = some job ∧ job.result = some (.fast 1 (some 7)) ∧
    t.system.manager.traceResultLocked ret.caller.jobId = .ok 7 ∧
    onePage 7 ret.caller.batchId = .replay .null ∧ ret.outcome = .error jobNotFound := by
  have h : ownerEnds (.fast 1 (some 7)) =
      some ((.ok 7, some (some (.fast 1 (some 7)))), ⟨"a", "batch", 3, 10⟩, .error jobNotFound) := by decide +kernel
  obtain ⟨t, t', ht, hs, hr, hstored⟩ := of_ownerEnds h
  obtain ⟨job, hj, hresult⟩ := Option.map_eq_some_iff.1 hstored
  exact ⟨t, _, t', job, ht, hs, hj, hresult, hr, rfl, rfl⟩

end HeteroSim.Jobs
