/-
Every interleaving of callers and workers. `Consistent` relates the threads
that stand between two sections to the jobs; a step keeps it and lets the jobs
evolve, and what the claims say of runs follows by induction.
-/
import HeteroSim.Jobs.Lifecycle

namespace HeteroSim.Jobs

open RunJobManager

variable {limits : Limits} {s s' : System} {e : Event} {a : Answer}

structure Consistent (limits : Limits) (s : System) : Prop where
  sound : Sound limits s.manager
  issued : ∀ id job, s.manager.jobs.get? id = some job → id ∈ s.issued
  pending : s.pending.Nodup ∧ ∀ id ∈ s.pending, id ∈ s.issued
  running : s.running.Nodup ∧ ∀ id ∈ s.running, id ∈ s.issued
  waits : ∀ id ∈ s.pending, ∀ job, s.manager.jobs.get? id = some job → job.status = .queued ∨ job.status = .cancelled
  runs : ∀ id ∈ s.running, ∀ job, s.manager.jobs.get? id = some job → job.status = .running

theorem Consistent.start : Consistent limits .start where
  sound := .empty
  issued := by simp [System.start, RunJobManager.empty]
  pending := by simp [System.start]
  running := by simp [System.start]
  waits := by simp [System.start]
  runs := by simp [System.start]

/-- The job an event removes by name. -/
def Event.named : Event → Option String
  | .prune jobId _ => jobId
  | _ => none

/-- What one step does: the jobs evolve, and an id that arrives is new. -/
structure Advances (e : Event) (s s' : System) : Prop where
  issued : ∀ id ∈ s.issued, id ∈ s'.issued
  evolves : ∃ target, Evolves target e.named s.manager s'.manager ∧ ∀ id, target = .arriving id → id ∉ s.issued

/-- A job that waits goes on waiting under a section that is about another, or that starts nothing. -/
theorem Evolves.waits {m m' : RunJobManager} {target : Target} {named : Option String} (hev : Evolves target named m m')
    {id : String} (hold : ∀ job, m.jobs.get? id = some job → job.status = .queued ∨ job.status = .cancelled)
    (hsteady : id = target.jobId → ∀ job job', m.jobs.get? id = some job → m'.jobs.get? id = some job' →
      (job'.status = .running ↔ job.status = .running)) {job' : RunJob} (hj' : m'.jobs.get? id = some job') :
    job'.status = .queued ∨ job'.status = .cancelled := by
  cases hj : m.jobs.get? id with
  | none => exact .inl (hev.arrives id job' hj hj').2
  | some job =>
    by_cases hid : id = target.jobId
    · have hold := hold job hj
      have hnot : job'.status ≠ .running := by
        intro hr
        have := (hsteady hid job job' hj hj').1 hr
        rw [this] at hold
        simp at hold
      obtain ⟨job'', hj'', hf⟩ | ⟨hnone, -, -⟩ := hev.follows id job hj
      · obtain rfl : job' = job'' := Option.some.inj (hj'.symm.trans hj'')
        obtain hs | hm := hf.moves
        · rwa [hs]
        · obtain hs | hs := hold <;> rw [hs] at hm
          · cases hm' : job'.status <;> simp [hm'] at hnot hm ⊢ <;> cases hm
          · cases hm
      · rw [hnone] at hj'
        cases hj'
    · exact hold job' (hev.frame id job' hid hj')

/-- What a step needs for the threads: who waits, who runs, and that its own section leaves them so. -/
theorem Consistent.next {target : Target} (h : Consistent limits s) (hsound : Sound limits s'.manager)
    (hev : Evolves target e.named s.manager s'.manager)
    (hfresh : ∀ id, target = .arriving id → id ∉ s.issued ∧ id ∈ s'.issued)
    (hissued : ∀ id ∈ s.issued, id ∈ s'.issued)
    (hpending : s'.pending.Nodup ∧ ∀ id ∈ s'.pending, id ∈ s.pending ∧ (id = target.jobId →
      ∀ job job', s.manager.jobs.get? id = some job → s'.manager.jobs.get? id = some job' →
        (job'.status = .running ↔ job.status = .running)) ∨ target = .arriving id)
    (hrunning : s'.running.Nodup ∧ ∀ id ∈ s'.running, id ∈ s.running ∧ (id = target.jobId →
      ∀ job job', s.manager.jobs.get? id = some job → s'.manager.jobs.get? id = some job' →
        (job'.status = .running ↔ job.status = .running)) ∨
      id ∈ s.pending ∧ ∀ job', s'.manager.jobs.get? id = some job' → job'.status = .running) :
    Consistent limits s' ∧ Advances e s s' := by
  have habsent : ∀ id, id ∉ s.issued → s.manager.jobs.get? id = none := by
    intro id hid
    by_contra hne
    obtain ⟨job, hj⟩ := Option.ne_none_iff_exists'.1 hne
    exact hid (h.issued id job hj)
  refine ⟨⟨hsound, fun id job' hj' => ?_, ⟨hpending.1, fun id hid => ?_⟩, ⟨hrunning.1, fun id hid => ?_⟩,
    fun id hid job' hj' => ?_, fun id hid job' hj' => ?_⟩, hissued, target, hev, fun id ht => (hfresh id ht).1⟩
  · cases hj : s.manager.jobs.get? id with
    | none => exact (hfresh id (hev.arrives id job' hj hj').1).2
    | some job => exact hissued id (h.issued id job hj)
  · obtain ⟨hold, -⟩ | ht := hpending.2 id hid
    · exact hissued id (h.pending.2 id hold)
    · exact (hfresh id ht).2
  · obtain ⟨hold, -⟩ | ⟨hold, -⟩ := hrunning.2 id hid
    · exact hissued id (h.running.2 id hold)
    · exact hissued id (h.pending.2 id hold)
  · obtain ⟨hold, hsteady⟩ | ht := hpending.2 id hid
    · exact hev.waits (h.waits id hold) hsteady hj'
    · exact .inl (hev.arrives id job' (habsent id (hfresh id ht).1) hj').2
  · obtain ⟨hold, hsteady⟩ | ⟨-, hrun⟩ := hrunning.2 id hid
    · cases hj : s.manager.jobs.get? id with
      | none =>
        have hnew := (hfresh id (hev.arrives id job' hj hj').1).1
        exact absurd (h.running.2 id hold) hnew
      | some job =>
        have hs := h.runs id hold job hj
        by_cases hne : id = target.jobId
        · exact (hsteady hne job job' hj hj').2 hs
        · rwa [Option.some.inj (hj.symm.trans (hev.frame id job' hne hj'))] at hs
    · exact hrun job' hj'

/-- A section that starts nothing, while no thread moves but those without a job. -/
theorem Consistent.calm {m' : RunJobManager} {id : String} (h : Consistent limits s) (hsound : Sound limits m')
    (hev : Evolves (.known id) e.named s.manager m')
    (hsteady : ∀ job job', s.manager.jobs.get? id = some job → m'.jobs.get? id = some job' →
      (job'.status = .running ↔ job.status = .running))
    (hm : s'.manager = m') (hp : s'.pending = s.pending) (hr : s'.running = s.running) (hi : s'.issued = s.issued) :
    Consistent limits s' ∧ Advances e s s' := by
  subst hm
  have ht : ∀ id', id' = (Target.known id).jobId → ∀ job job', s.manager.jobs.get? id' = some job →
      s'.manager.jobs.get? id' = some job' → (job'.status = .running ↔ job.status = .running) := by
    intro id' hid
    rw [hid]
    exact hsteady
  refine h.next hsound hev ?_ ?_ ?_ ?_
  · intro id' he
    cases he
  · rw [hi]
    exact fun _ h => h
  · rw [hp]
    exact ⟨h.pending.1, fun id' hid => .inl ⟨hid, ht id'⟩⟩
  · rw [hr]
    exact ⟨h.running.1, fun id' hid => .inl ⟨hid, ht id'⟩⟩

/-- A step in which the manager stays as it is, and no job gets a thread. -/
theorem Consistent.idle (h : Consistent limits s) (hm : s'.manager = s.manager) (hp : s'.pending = s.pending)
    (hr : s'.running = s.running) (hi : s'.issued = s.issued) : Consistent limits s' ∧ Advances e s s' :=
  @Consistent.calm limits s s' e s.manager "" h h.sound (.of_jobs rfl rfl)
    (fun job job' hj hj' => by rw [Option.some.inj (hj.symm.trans hj')]) hm hp hr hi

theorem Consistent.enqueue (h : Consistent limits s) {index : ℕ} {selected : Option RetentionPolicy} {estimate : Estimate}
    {jobId now : String} {pool : PoolAnswer} (hnew : jobId ∉ s.issued) :
    Consistent limits (s.enqueue limits index selected estimate jobId now pool).2 ∧
      Advances (.enqueue index estimate jobId now pool) s (s.enqueue limits index selected estimate jobId now pool).2 := by
  have habsent : s.manager.jobs.get? jobId = none := by
    by_contra hne
    obtain ⟨job, hj⟩ := Option.ne_none_iff_exists'.1 hne
    exact hnew (h.issued jobId job hj)
  unfold System.enqueue
  cases selectPolicy selected estimate with
  | error e => exact h.idle rfl rfl rfl rfl
  | ok policy =>
    obtain ⟨hsound, hev⟩ := @submitEnqueue_spec limits s.manager jobId none h.sound policy estimate.estimate now habsent
      pool.toExcept
    have hne : ∀ id ∈ s.issued, id ≠ jobId := fun id hid he => hnew (he ▸ hid)
    refine h.next hsound hev ?_ (fun id hid => List.mem_cons_of_mem _ hid) ?_ ?_
    · intro id he
      cases he
      exact ⟨hnew, List.mem_cons_self⟩
    · simp only
      split
      · refine ⟨List.nodup_cons.2 ⟨fun hid => hnew (h.pending.2 _ hid), h.pending.1⟩, fun id hid => ?_⟩
        obtain rfl | hid := List.mem_cons.1 hid
        · exact .inr rfl
        · exact .inl ⟨hid, fun he => absurd he (hne id (h.pending.2 id hid))⟩
      · exact ⟨h.pending.1, fun id hid => .inl ⟨hid, fun he => absurd he (hne id (h.pending.2 id hid))⟩⟩
    · exact ⟨h.running.1, fun id hid => .inl ⟨hid, fun he => absurd he (hne id (h.running.2 id hid))⟩⟩

/-- A worker's last section: its job is no longer a running worker's. -/
theorem Consistent.workerEnd {m' : RunJobManager} {id : String} (h : Consistent limits s) (hrun : id ∈ s.running)
    (hsound : Sound limits m') (hev : Evolves (.known id) e.named s.manager m') :
    Consistent limits { s with manager := m', running := s.running.erase id } ∧
      Advances e s { s with manager := m', running := s.running.erase id } := by
  refine h.next hsound hev ?_ (fun _ h => h) ⟨h.pending.1, fun id' hid => .inl ⟨hid, fun he job _ hj => ?_⟩⟩
    ⟨h.running.1.erase id, fun id' hid => ?_⟩
  · intro id' he
    cases he
  · -- its job is running, so it is not pending
    have hwait := h.waits id' hid job hj
    rw [h.runs id' (he ▸ hrun) job hj] at hwait
    simp at hwait
  · have := h.running.1.mem_erase_iff.1 hid
    exact .inl ⟨this.2, fun he => absurd he this.1⟩

/-- A worker's first section. -/
theorem Consistent.started {now id : String} (h : Consistent limits s) (hpend : id ∈ s.pending) :
    Consistent limits { s with
        manager := (s.manager.workerStart now id).2
        pending := s.pending.erase id
        running := if (s.manager.workerStart now id).1 then id :: s.running else s.running } ∧
      Advances (.start now id) s { s with
        manager := (s.manager.workerStart now id).2
        pending := s.pending.erase id
        running := if (s.manager.workerStart now id).1 then id :: s.running else s.running } := by
  obtain ⟨hsound, hev, hgoes⟩ := @workerStart_spec limits s.manager id none h.sound now (h.waits id hpend)
  refine h.next hsound hev (fun id' he => by cases he) (fun _ h => h)
    ⟨h.pending.1.erase id, fun id' hid => ?_⟩ ?_
  · have := h.pending.1.mem_erase_iff.1 hid
    exact .inl ⟨this.2, fun he => absurd he this.1⟩
  · -- a job cannot run and wait at once
    have hapart : ∀ job, s.manager.jobs.get? id = some job → id ∉ s.running := by
      intro job hj hrun
      have hwait := h.waits id hpend job hj
      rw [h.runs id hrun job hj] at hwait
      simp at hwait
    have hrest : ∀ id' ∈ s.running, id' = (Target.known id).jobId → ∀ job job', s.manager.jobs.get? id' = some job →
        (s.manager.workerStart now id).2.jobs.get? id' = some job' → (job'.status = .running ↔ job.status = .running) :=
      fun id' hid he job _ hj => by
        obtain rfl : id' = id := he
        exact absurd hid (hapart job hj)
    split
    · next hgo =>
      have hpresent : ∃ job, s.manager.jobs.get? id = some job := by
        cases hget : s.manager.jobs.get? id with
        | none => simp [workerStart, hget] at hgo
        | some job => exact ⟨job, rfl⟩
      obtain ⟨job, hj⟩ := hpresent
      refine ⟨List.nodup_cons.2 ⟨hapart job hj, h.running.1⟩, fun id' hid => ?_⟩
      obtain rfl | hid := List.mem_cons.1 hid
      · exact .inr ⟨hpend, hgoes hgo⟩
      · exact .inl ⟨hid, hrest id' hid⟩
    · exact ⟨h.running.1, fun id' hid => .inl ⟨hid, hrest id' hid⟩⟩

theorem Consistent.traceBegin {jobId batchId : String} {offset limit : ℤ} (h : Consistent limits s) :
    Consistent limits (s.traceBegin jobId batchId offset limit).2 ∧
      Advances (.traceBegin jobId batchId offset limit) s (s.traceBegin jobId batchId offset limit).2 := by
  unfold System.traceBegin
  split
  · exact h.idle rfl rfl rfl rfl
  obtain ⟨hsound, hjobs, hev⟩ := @traceBegin_spec limits s.manager jobId (.known "") none h.sound batchId s.flights
  have hsteady : ∀ job job', s.manager.jobs.get? "" = some job →
      (s.manager.traceBegin jobId batchId s.flights).2.jobs.get? "" = some job' →
        (job'.status = .running ↔ job.status = .running) := fun job job' hj hj' => by
    rw [Option.some.inj (hj.symm.trans (hjobs ▸ hj'))]
  simp only
  split <;> exact h.calm hsound hev hsteady rfl rfl rfl rfl

/-- **One step**, of any thread. -/
theorem Consistent.step (h : Consistent limits s) (hs : s.step limits e = some (a, s')) :
    Consistent limits s' ∧ Advances e s s' := by
  cases e with
  | submit retentionPolicy =>
    simp only [System.step] at hs
    split at hs <;> cases hs <;> exact h.idle rfl rfl rfl rfl
  | estimateFailed index e =>
    simp only [System.step, Option.map_eq_some_iff] at hs
    obtain ⟨_, -, he⟩ := hs
    cases he
    exact h.idle rfl rfl rfl rfl
  | enqueue index estimate jobId now pool =>
    simp only [System.step] at hs
    split at hs
    · cases hs
    next hnew =>
    obtain ⟨selected, -, he⟩ := Option.map_eq_some_iff.1 hs
    have := @Consistent.enqueue limits s h index selected estimate jobId now pool hnew
    rwa [he] at this
  | get jobId =>
    cases hs
    exact h.idle rfl rfl rfl rfl
  | cancel now jobId =>
    cases hs
    obtain ⟨hsound, hev, hsteady⟩ := @cancel_spec limits s.manager none h.sound now jobId
    exact h.calm hsound hev (fun job job' hj hj' => (hsteady job job' hj hj').1) rfl rfl rfl rfl
  | prune jobId keep =>
    cases hs
    obtain ⟨hsound, hev, hsteady⟩ := @prune_spec limits s.manager (.known "") h.sound jobId keep
    exact h.calm hsound hev (hsteady "") rfl rfl rfl rfl
  | shutdown cancelPending cancelRunning =>
    cases hs
    obtain ⟨hsound, hev, hsteady⟩ := @shutdownSection_spec limits s.manager (.known "") none h.sound cancelPending
      cancelRunning
    exact h.calm hsound hev (hsteady "") rfl rfl rfl rfl
  | poolShutdown cancelFutures =>
    cases hs
    have hev : Evolves (.known "") none s.manager s.manager := .of_jobs rfl rfl
    have hsame : ∀ id job job', s.manager.jobs.get? id = some job → s.manager.jobs.get? id = some job' →
        (job'.status = .running ↔ job.status = .running) := fun id job job' hj hj' => by
      rw [Option.some.inj (hj.symm.trans hj')]
    refine h.next h.sound hev (fun id he => by cases he) (fun _ h => h) ?_
      ⟨h.running.1, fun id hid => .inl ⟨hid, fun _ => hsame id⟩⟩
    cases cancelFutures with
    | true => simp
    | false => exact ⟨h.pending.1, fun id hid => .inl ⟨hid, fun _ => hsame id⟩⟩
  | start now jobId =>
    simp only [System.step] at hs
    split at hs
    · next hpend =>
      cases hs
      exact h.started hpend
    · cases hs
  | progress jobId p =>
    cases hs
    obtain ⟨hsound, hev, hsteady⟩ := @updateProgress_spec limits s.manager none h.sound jobId p
    exact h.calm hsound hev (hsteady jobId) rfl rfl rfl rfl
  | cancelled now jobId =>
    simp only [System.step] at hs
    split at hs
    · next hrun =>
      cases hs
      obtain ⟨hsound, hev⟩ := workerCancelled_spec h.sound now (h.runs jobId hrun)
      exact h.workerEnd hrun hsound hev
    · cases hs
  | failed now jobId e =>
    simp only [System.step] at hs
    split at hs
    · next hrun =>
      cases hs
      obtain ⟨hsound, hev⟩ := workerFailed_spec h.sound now (.ofException e) (h.runs jobId hrun)
      exact h.workerEnd hrun hsound hev
    · cases hs
  | completed now jobId report result =>
    simp only [System.step] at hs
    split at hs
    · next hrun =>
      cases hs
      obtain ⟨hsound, hev⟩ := workerCompleted_spec h.sound now report result (h.runs jobId hrun)
      exact h.workerEnd hrun hsound hev
    · cases hs
  | traceBegin jobId batchId offset limit =>
    simp only [System.step, Option.some.injEq] at hs
    have hstep : Consistent limits (s.traceBegin jobId batchId offset limit).2 ∧ _ := h.traceBegin
    rwa [hs] at hstep
  | traceEnd index built =>
    simp only [System.step, Option.map_eq_some_iff] at hs
    obtain ⟨replay, -, he⟩ := hs
    cases he
    obtain ⟨hsound, hjobs, hev⟩ := @traceEnd_spec limits s.manager (.known "") none h.sound replay built
    exact h.calm hsound hev (fun job job' hj hj' => by rw [Option.some.inj (hj.symm.trans (hjobs ▸ hj'))]) rfl rfl rfl rfl

theorem Reachable.consistent (h : Reachable limits s) : Consistent limits s :=
  Reached.keeps h (fun _ hs => hs ▸ .start) fun _ _ _ hc ⟨_, hs⟩ => (hc.step hs).1

/-! ## Runs -/

/-- An id that was given out and has no job never has one again. -/
theorem Advances.absent {id : String} (h : Advances e s s') (hid : id ∈ s.issued) (hnone : s.manager.jobs.get? id = none) :
    s'.manager.jobs.get? id = none := by
  obtain ⟨target, hev, hfresh⟩ := h.evolves
  cases hj : s'.manager.jobs.get? id with
  | none => rfl
  | some job => exact absurd hid (hfresh id (hev.arrives id job hnone hj).1)

/-- A job that is terminal after a step was so before, or has the newest sequence. -/
theorem Advances.terminal_of {job' : RunJob} (h : Advances e s s') (hc : Consistent limits s)
    (hc' : Consistent limits s') (hj' : job' ∈ s'.manager.terminalJobs) :
    job' ∈ s.manager.terminalJobs ∨ ∃ n, job'.finishedSequence = some n ∧ s.manager.finishedSequence < n := by
  obtain ⟨hget', ht'⟩ := (mem_terminalJobs hc'.sound.toBooks).1 hj'
  obtain ⟨target, hev, -⟩ := h.evolves
  cases hj : s.manager.jobs.get? job'.jobId with
  | none =>
    rw [(hev.arrives _ job' hj hget').2] at ht'
    cases ht'
  | some job =>
    obtain ⟨job'', hj'', hf⟩ | ⟨hnone, -, -⟩ := hev.follows _ job hj
    · obtain rfl : job' = job'' := Option.some.inj (hget'.symm.trans hj'')
      cases ht : job.status.terminal with
      | true =>
        rw [← hf.frozen ht] at hj
        exact .inl ((mem_terminalJobs hc.sound.toBooks).2 ⟨hj, ht'⟩)
      | false => exact .inr (hf.sequence ht ht')
    · rw [hnone] at hget'
      cases hget'

/-- What has become of a terminal job: it is as it was, or gone, by name or behind the jobs that finished later. -/
def Outlives (named : Prop) (id : String) (job : RunJob) (s : System) : Prop :=
  s.manager.jobs.get? id = some job ∨
    s.manager.jobs.get? id = none ∧ (named ∨ ∀ job' ∈ s.manager.terminalJobs, Before job job')

/-- **Terminal jobs over a run**: they never change, and those that are pruned finished before those that are left. -/
theorem terminal_run {es : List Event} (hrun : Run (Step limits) s es s') (hc : Consistent limits s) {id : String} {job : RunJob}
    (hj : s.manager.jobs.get? id = some job) (ht : job.status.terminal = true) :
    Outlives (∃ e ∈ es, e.named = some id) id job s' := by
  obtain ⟨n, hn, hle⟩ := hc.sound.sequence hj ht
  have hkeep : Consistent limits s' ∧ id ∈ s'.issued ∧ n ≤ s'.manager.finishedSequence ∧
      Outlives (∃ e ∈ es, e.named = some id) id job s' := by
    refine hrun.keeps (I := fun t => Consistent limits t ∧ id ∈ t.issued ∧ n ≤ t.manager.finishedSequence ∧
      Outlives (∃ e ∈ es, e.named = some id) id job t) ?_ ⟨hc, hc.issued id job hj, hle, .inl hj⟩
    intro t e t' he ⟨hct, hid, hcount, hold⟩ ⟨a, hstep⟩
    obtain ⟨hct', hadv⟩ := hct.step hstep
    obtain ⟨target, hev, -⟩ := hadv.evolves
    refine ⟨hct', hadv.issued id hid, hcount.trans hev.counter, ?_⟩
    obtain hold | ⟨hnone, hor⟩ := hold
    · obtain ⟨job', hj', hf⟩ | ⟨hnone, -, hor⟩ := hev.follows id job hold
      · exact .inl (hf.frozen ht ▸ hj')
      · exact .inr ⟨hnone, hor.imp_left fun hnamed => ⟨e, he, hnamed⟩⟩
    · refine .inr ⟨hadv.absent hid hnone, hor.imp_right fun hall job' hjob' => ?_⟩
      obtain hin | ⟨n', hn', hlt⟩ := hadv.terminal_of hct hct' hjob'
      · exact hall job' hin
      · exact ⟨n, n', hn, hn', hcount.trans_lt hlt⟩
  exact hkeep.2.2.2

/-- A job whose cancel event is set keeps it. -/
theorem cancelEvent_run {es : List Event} (hrun : Run (Step limits) s es s') (hc : Consistent limits s) {id : String}
    (hid : id ∈ s.issued) (hset : ∀ job, s.manager.jobs.get? id = some job → job.cancelEvent = true) :
    Consistent limits s' ∧ ∀ job, s'.manager.jobs.get? id = some job → job.cancelEvent = true := by
  have hkeep : Consistent limits s' ∧ id ∈ s'.issued ∧
      ∀ job, s'.manager.jobs.get? id = some job → job.cancelEvent = true := by
    refine hrun.keeps (I := fun t => Consistent limits t ∧ id ∈ t.issued ∧
      ∀ job, t.manager.jobs.get? id = some job → job.cancelEvent = true) ?_ ⟨hc, hid, hset⟩
    intro t e t' _ ⟨hct, hid, hset⟩ ⟨a, hstep⟩
    obtain ⟨hct', hadv⟩ := hct.step hstep
    refine ⟨hct', hadv.issued id hid, fun job' hj' => ?_⟩
    obtain ⟨target, hev, -⟩ := hadv.evolves
    cases hj : t.manager.jobs.get? id with
    | none =>
      rw [hadv.absent hid hj] at hj'
      cases hj'
    | some job =>
      obtain ⟨job'', hj'', hf⟩ | ⟨hnone, -, -⟩ := hev.follows id job hj
      · rw [Option.some.inj (hj'.symm.trans hj'')]
        exact hf.cancel (hset job hj)
      · rw [hnone] at hj'
        cases hj'
  exact ⟨hkeep.1, hkeep.2.2⟩

/-- After a cancel that returned true the job neither completes nor fails. -/
theorem cancelled_run {es : List Event} {now id : String} {s₁ s₂ : System} (hc : Consistent limits s)
    (hcancel : s.step limits (.cancel now id) = some (.bool true, s₁)) (hrun : Run (Step limits) s₁ es s₂) {job : RunJob}
    (hj : s₂.manager.jobs.get? id = some job) : job.status ≠ .completed ∧ job.status ≠ .failed := by
  have hc₁ := (hc.step hcancel).1
  simp only [System.step, Option.some.injEq, Prod.mk.injEq, Answer.bool.injEq] at hcancel
  obtain ⟨htrue, hs₁⟩ := hcancel
  obtain ⟨-, -, hspec⟩ := @cancel_spec limits s.manager none hc.sound now id
  have hpresent : ∃ job, s.manager.jobs.get? id = some job := by
    cases hget : s.manager.jobs.get? id with
    | none => simp [cancel, hget] at htrue
    | some job => exact ⟨job, rfl⟩
  obtain ⟨job₀, hj₀⟩ := hpresent
  have hid : id ∈ s₁.issued := hs₁ ▸ hc.issued id job₀ hj₀
  obtain ⟨hc₂, hset⟩ := cancelEvent_run hrun hc₁ hid fun job₁ hj₁ => by
    rw [← hs₁] at hj₁
    exact (hspec job₀ job₁ hj₀ hj₁).2 htrue
  exact hc₂.sound.stopped id job hj (hset job hj)

/-- A terminal job finished before one that becomes terminal now. -/
theorem Books.before {m : RunJobManager} {job job' : RunJob} (h : Books m) (hj : job ∈ m.terminalJobs)
    (hn : ∃ n, job'.finishedSequence = some n ∧ m.finishedSequence < n) : Before job job' := by
  obtain ⟨hget, ht⟩ := (mem_terminalJobs h).1 hj
  obtain ⟨n, hn', hle⟩ := h.sequence hget ht
  obtain ⟨n', hn'', hlt⟩ := hn
  exact ⟨n, n', hn', hn'', hle.trans_lt hlt⟩

/-- **The life of a run job**, in every state some interleaving reaches: the bound on active jobs; how a
job goes on in any step; a cancelled job's end; the bound on the history, which keeps the jobs that
finished last; and whom the trace cache names. -/
theorem job_lifecycle (limits : Limits) {s : System} (hs : Reachable limits s) :
    s.manager.activeCount ≤ limits.maxActiveJobs ∧
    (∀ e a s', s.step limits e = some (a, s') →
      (∀ id job', s.manager.jobs.get? id = none → s'.manager.jobs.get? id = some job' → job'.status = .queued) ∧
      (∀ id job, s.manager.jobs.get? id = some job → job.status.terminal = false →
        ∃ job', s'.manager.jobs.get? id = some job' ∧ (job'.status = job.status ∨ Moves job.status job'.status) ∧
          (job'.status.terminal = true → ∀ other ∈ s.manager.terminalJobs, Before other job'))) ∧
    (∀ es s', Run (Step limits) s es s' → ∀ id job, s.manager.jobs.get? id = some job → job.status.terminal = true →
      Outlives (∃ e ∈ es, e.named = some id) id job s') ∧
    (∀ now id s₁, s.step limits (.cancel now id) = some (.bool true, s₁) → ∀ es s₂, Run (Step limits) s₁ es s₂ →
      ∀ job, s₂.manager.jobs.get? id = some job → job.status ≠ .completed ∧ job.status ≠ .failed) ∧
    s.manager.terminalJobs.length ≤ limits.maxHistory ∧
    (∀ key ∈ s.manager.traceCache.keys, ∃ job, s.manager.jobs.get? key.1 = some job ∧ job.status = .completed) := by
  have hc := Reachable.consistent hs
  refine ⟨hc.sound.active, fun e a s' hstep => ⟨fun id job' hnone hj' => ?_, fun id job hj ht => ?_⟩,
    fun es s' hrun id job hj ht => terminal_run hrun hc hj ht,
    fun now id s₁ hcancel es s₂ hrun job hj => cancelled_run hc hcancel hrun hj, hc.sound.history, hc.sound.cached⟩
  · obtain ⟨target, hev, -⟩ := (hc.step hstep).2.evolves
    exact (hev.arrives id job' hnone hj').2
  · obtain ⟨target, hev, -⟩ := (hc.step hstep).2.evolves
    obtain ⟨job', hj', hf⟩ | ⟨-, ht', -⟩ := hev.follows id job hj
    · exact ⟨job', hj', hf.moves, fun ht' other hother => hc.sound.before hother (hf.sequence ht ht')⟩
    · rw [ht] at ht'
      cases ht'

/-- The manager run on a list of events. -/
def runEvents (limits : Limits) : System → List Event → Option System
  | s, [] => some s
  | s, e :: es => (s.step limits e).bind fun next => runEvents limits next.2 es

theorem run_of_runEvents : ∀ {es : List Event} {s s' : System}, runEvents limits s es = some s' → Run (Step limits) s es s'
  | [], s, s', h => by
    cases h
    exact .nil s
  | e :: es, s, s', h => by
    obtain ⟨next, hstep, hrest⟩ := Option.bind_eq_some_iff.1 h
    exact .cons ⟨next.1, hstep⟩ (run_of_runEvents hrest)

def oneKept : Limits := ⟨1, 1, 2, 1, Nat.one_pos, Nat.one_pos, Nat.le_succ 1, Nat.one_pos⟩

/-- Two jobs are submitted; the first completes and is replayed, the second is cancelled while it runs. -/
def twoJobs : List Event :=
  [.submit none, .submit (some "aggregate"),
    .enqueue 0 ⟨.null, "exact", none⟩ "a" "t0" .accepted, .enqueue 0 ⟨.null, "exact", none⟩ "b" "t1" .accepted,
    .start "t2" "a", .start "t3" "b", .completed "t4" "a" .null (.online 7),
    .traceBegin "a" "batch" 0 10, .traceEnd 0 (.replay .null), .cancel "t5" "b"]

/-- The cancelled job displaces the completed one, and its cached trace, when its worker is done. -/
theorem job_lifecycle_twoJobs :
    (runEvents oneKept .start twoJobs).map (fun s => (s.manager.activeCount, s.manager.terminalJobs.map RunJob.jobId,
      s.manager.traceCache.keys)) = some (1, ["a"], [("a", "batch")]) ∧
    (runEvents oneKept .start (twoJobs ++ [.completed "t6" "b" .null (.online 8)])).map
      (fun s => (s.manager.activeCount, s.manager.terminalJobs.map fun job => (job.jobId, job.status),
        s.manager.traceCache.keys)) = some (0, [("b", .cancelled)], []) ∧
    ∀ s ∈ runEvents oneKept .start twoJobs, ∀ es s', Run (Step oneKept) s es s' →
      ∀ job, s.manager.jobs.get? "a" = some job → job.status.terminal = true →
        Outlives (∃ e ∈ es, e.named = some "a") "a" job s' := by
  refine ⟨by decide +kernel, by decide +kernel, fun s hs es s' hrun job hj ht => ?_⟩
  exact (job_lifecycle oneKept ⟨.start, twoJobs, rfl, run_of_runEvents hs⟩).2.2.1 es s' hrun "a" job hj ht

end HeteroSim.Jobs
