/-
The life of a run job, over every interleaving of callers and workers. Each
section is one lemma: it keeps `Sound` and `Evolves` its target. A worker's
sections need to know how far its job is, which the system's own invariant
says: pending work is of a queued or cancelled job, a running worker's job is
running.
-/
import HeteroSim.Jobs.Runs
import HeteroSim.Jobs.Sections

namespace HeteroSim.Jobs

open RunJobManager

variable {limits : Limits} {m m' : RunJobManager} {id : String} {job job' : RunJob}

/-- The section leaves running what runs, and starts nothing. -/
def Steady (m m' : RunJobManager) : Prop := ∀ id job job', m.jobs.get? id = some job → m'.jobs.get? id = some job' →
  (job'.status = .running ↔ job.status = .running)

theorem Steady.of_subset (h : ∀ id job, m'.jobs.get? id = some job → m.jobs.get? id = some job) : Steady m m' := by
  intro id job job' hj hj'
  have : job = job' := Option.some.inj (hj.symm.trans (h id job' hj'))
  rw [this]

/-- Sections that change no job and put no trace in the cache. -/
theorem Sound.of_jobs (h : Sound limits m) (hjobs : m'.jobs = m.jobs) (hc : m'.finishedSequence = m.finishedSequence)
    (hcached : ∀ key ∈ m'.traceCache.keys, key ∈ m.traceCache.keys ∨
      ∃ job, m.jobs.get? key.1 = some job ∧ job.status = .completed) : Sound limits m' where
  toBooks := h.toBooks.mono (fun id job hj => hjobs ▸ hj) hc fun key hkey => by
    rw [hjobs]
    exact (hcached key hkey).elim (h.cached key) fun h => h
  active := by
    rw [activeCount, hjobs]
    exact h.active
  history := by
    rw [terminalJobs, hjobs]
    exact h.history

/-- An active job stored again, still active. -/
theorem Sound.restore {named : Option String} (h : Sound limits m) (hid : job'.jobId = id)
    (hget : m.jobs.get? id = some job) (ht : job.status.terminal = false)
    (hmoves : job'.status = job.status ∨ Moves job.status job'.status) (ht' : job'.status.terminal = false)
    (hseq : job'.finishedSequence = job.finishedSequence) (hcancel : job.cancelEvent = true → job'.cancelEvent = true) :
    Sound limits (m.store job') ∧ Evolves (.known id) named m (m.store job') := by
  subst hid
  have hnone : job'.finishedSequence = none := hseq.trans (h.unfinished hget ht)
  have hopen : Open m job'.jobId := fun j hj => by
    rw [hget] at hj
    exact Option.some.inj hj ▸ ht
  have hbooks : Books (m.store job') := by
    refine h.toBooks.store hopen le_rfl ?_ (fun n hn => ?_) fun _ => ?_
    · simp [ht', hnone]
    · rw [hnone] at hn
      cases hn
    · constructor <;> intro hs <;> simp [hs, Status.terminal] at ht'
  refine ⟨⟨hbooks, ?_, ?_⟩, @Evolves.store m job' (.known _) named _ rfl le_rfl (fun j hj => ?_) fun hn => ?_⟩
  · have := @activeCount_store m job job' hget ht
    have := h.active
    omega
  · have := @terminalJobs_store m job job' hget ht
    simp only [ht', Bool.false_eq_true, if_false, Nat.add_zero] at this
    exact this ▸ h.history
  · have hj : job = j := Option.some.inj (hget.symm.trans hj)
    subst hj
    refine ⟨hmoves, fun hterm => ?_, hcancel, fun _ hterm => ?_⟩
    · rw [ht] at hterm
      cases hterm
    · rw [ht'] at hterm
      cases hterm
  · rw [hget] at hn
    cases hn

/-! ## The sections -/

theorem submitEnqueue_spec {named : Option String} (h : Sound limits m) {policy : RetentionPolicy} {estimate : Json} {now : String}
    (hnew : m.jobs.get? id = none) (pool : Except Raised Unit) :
    Sound limits (m.submitEnqueue limits (.queued id policy estimate now) pool).2 ∧
      Evolves (.arriving id) named m (m.submitEnqueue limits (.queued id policy estimate now) pool).2 := by
  unfold submitEnqueue ensureSubmissionCapacityLocked
  split
  · exact ⟨h, .of_jobs rfl rfl⟩
  by_cases hfull : limits.maxActiveJobs ≤ m.activeCount
  · rw [if_pos hfull]
    exact ⟨h, .of_jobs rfl rfl⟩
  rw [if_neg hfull]
  cases pool with
  | error e =>
    have hsame : (m.jobs.insert id (.queued id policy estimate now)).erase id = m.jobs := by
      rw [Dict.erase_insert, Dict.erase_of_not_mem (Dict.get?_eq_none.1 hnew)]
    exact ⟨h.of_jobs hsame rfl fun _ hkey => .inl hkey, .of_jobs hsame rfl⟩
  | ok _ =>
    have hperm := @values_store_new m (.queued id policy estimate now) hnew
    have hopen : Open m id := fun j hj => by
      rw [hnew] at hj
      cases hj
    refine ⟨⟨h.toBooks.store hopen le_rfl ?_ (fun n hn => ?_) fun hc => ?_, ?_, ?_⟩,
      @Evolves.store m (.queued id policy estimate now) (.arriving id) named _ rfl le_rfl (fun j hj => ?_) fun _ => ⟨rfl, rfl⟩⟩
    · simp [RunJob.queued, Status.terminal]
    · cases hn
    · cases hc
    · rw [activeCount, hperm.countP_eq, List.countP_cons]
      exact Nat.lt_of_not_le hfull
    · rw [terminalJobs, (hperm.filter _).length_eq, List.filter_cons]
      exact h.history
    · change m.jobs.get? id = some j at hj
      rw [hnew] at hj
      cases hj

theorem cancel_spec {named : Option String} (h : Sound limits m) (now id : String) :
    Sound limits (m.cancel limits now id).2 ∧ Evolves (.known id) named m (m.cancel limits now id).2 ∧
      ∀ job job', m.jobs.get? id = some job → (m.cancel limits now id).2.jobs.get? id = some job' →
        (job'.status = .running ↔ job.status = .running) ∧
        ((m.cancel limits now id).1 = true → job'.cancelEvent = true) := by
  cases hget : m.jobs.get? id with
  | none =>
    have hcall : m.cancel limits now id = (false, m) := by rw [cancel, hget]
    rw [hcall]
    refine ⟨h, .of_jobs rfl rfl, fun job _ hj => ?_⟩
    cases hj
  | some job =>
    have hid := h.ids id job hget
    cases hs : job.status with
    | completed | failed | cancelled =>
      have hcall : m.cancel limits now id = (false, m) := by
        simp only [cancel, hget, hs, Status.terminal, if_true]
      rw [hcall]
      refine ⟨h, .of_jobs rfl rfl, fun j j' hj hj' => ?_⟩
      rw [← Option.some.inj hj, Option.some.inj (hget.symm.trans hj')]
      exact ⟨Iff.rfl, fun hf => by cases hf⟩
    | queued =>
      have hcall : m.cancel limits now id = (true, ((m.markCancelledLocked now
          { job with cancellationRequested := true, cancelEvent := true }).pruneTerminalLocked limits.maxHistory).2) := by
        simp only [cancel, hget, hs, Status.terminal, Bool.false_eq_true, if_false, if_true]
      rw [hcall]
      have hnone := h.unfinished hget (by rw [hs]; rfl)
      obtain ⟨hsound, hev, htarget⟩ := @settle limits m id job
        { job with
          cancellationRequested := true, cancelEvent := true, status := .cancelled, finishedAt := some now,
          report := none, result := none, error := none, progressDetail := none,
          progress := job.progress.restage "cancelled" "仿真任务已取消" }
        named h hid hget (hs ▸ .withdraw) (by rw [hs]; rfl) rfl hnone (fun _ => rfl) fun _ => rfl
      refine ⟨hsound, hev, fun j j' hj hj' => ?_⟩
      obtain ⟨hstatus, hcancel⟩ := htarget j' hj'
      rw [← Option.some.inj hj, hs, hstatus]
      exact ⟨by simp, fun _ => hcancel⟩
    | running =>
      have hcall : m.cancel limits now id = (true, m.store { job with
          cancellationRequested := true, cancelEvent := true
          progress := job.progress.restage "cancelling" "正在安全取消仿真任务" }) := by
        simp only [cancel, hget, hs, Status.terminal, Bool.false_eq_true, if_false, reduceCtorEq]
      rw [hcall]
      obtain ⟨hsound, hev⟩ := @Sound.restore limits m id job
        { job with
          cancellationRequested := true, cancelEvent := true
          progress := job.progress.restage "cancelling" "正在安全取消仿真任务" }
        named h hid hget (by rw [hs]; rfl) (.inl rfl) (by rw [hs]; rfl) rfl fun _ => rfl
      refine ⟨hsound, hev, fun j j' hj hj' => ?_⟩
      rw [RunJobManager.store, Dict.get?_insert, if_pos hid.symm] at hj'
      rw [← Option.some.inj hj, ← Option.some.inj hj']
      exact ⟨Iff.rfl, fun _ => rfl⟩

/-- An explicit removal, of a terminal job. -/
theorem remove_pruned (h : Sound limits m) (hget : m.jobs.get? id = some job) (ht : job.status.terminal = true) :
    Sound limits (m.removeJobLocked id) ∧ ∀ target, Evolves target (some id) m (m.removeJobLocked id) := by
  have hid := h.ids id job hget
  subst hid
  have hsub : ∀ id' j, (m.removeJobLocked job.jobId).jobs.get? id' = some j → m.jobs.get? id' = some j := by
    intro id' j hj
    rw [removeJobLocked, Dict.get?_erase] at hj
    split at hj
    · cases hj
    · exact hj
  have hperm := Dict.values_perm hget
  refine ⟨⟨h.toBooks.mono hsub rfl fun key hkey => ?_, ?_, ?_⟩, fun target => ⟨le_rfl, fun id' j hj => ?_, ?_, ?_⟩⟩
  · rw [removeJobLocked, Dict.mem_keys_eraseWhere, decide_eq_false_iff_not] at hkey
    obtain ⟨j, hj, hs⟩ := h.cached key hkey.1
    exact ⟨j, by rw [removeJobLocked, Dict.get?_erase_of_ne _ hkey.2, hj], hs⟩
  · have := hperm.countP_eq fun job => !job.status.terminal
    rw [List.countP_cons] at this
    have := h.active
    simp only [activeCount, removeJobLocked] at *
    omega
  · have := (hperm.filter fun job => job.status.terminal).length_eq
    rw [List.filter_cons, if_pos ht, List.length_cons] at this
    have := h.history
    simp only [terminalJobs, removeJobLocked] at *
    omega
  · by_cases hne : id' = job.jobId
    · subst hne
      refine .inr ⟨Dict.get?_erase_self _ _, ?_, .inl rfl⟩
      rwa [Option.some.inj (hj.symm.trans hget)]
    · exact .inl ⟨j, by rw [removeJobLocked, Dict.get?_erase_of_ne _ hne, hj], .refl _ j⟩
  · exact fun id' j _ hj => hsub id' j hj
  · intro id' j hnone hj
    rw [hsub _ j hj] at hnone
    cases hnone

theorem pruneTerminalLocked_spec {target : Target} {named : Option String} (h : Sound limits m) (keep : ℕ) :
    Sound limits (m.pruneTerminalLocked keep).2 ∧ Evolves target named m (m.pruneTerminalLocked keep).2 ∧
      Steady m (m.pruneTerminalLocked keep).2 := by
  have hp := pruneTerminalLocked_pruned h.toBooks keep
  refine ⟨⟨h.toBooks.pruned hp, hp.active ▸ h.active, ?_⟩, hp.evolves, .of_subset hp.get?⟩
  exact (hp.history ▸ min_le_left _ _).trans h.history

theorem prune_spec {target : Target} (h : Sound limits m) (jobId : Option String) (keep : Option ℤ) :
    Sound limits (m.prune jobId keep).2 ∧ Evolves target jobId m (m.prune jobId keep).2 ∧
      Steady m (m.prune jobId keep).2 := by
  have hsame : Sound limits m ∧ Evolves target jobId m m ∧ Steady m m := ⟨h, .of_jobs rfl rfl, .of_subset fun _ _ hj => hj⟩
  cases jobId with
  | none =>
    cases keep with
    | none => exact pruneTerminalLocked_spec h 0
    | some keep =>
      rw [prune]
      split
      · exact hsame
      · exact pruneTerminalLocked_spec h keep.toNat
  | some id =>
    cases keep with
    | some keep => exact hsame
    | none =>
      cases hget : m.jobs.get? id with
      | none => simpa only [prune, hget] using hsame
      | some job =>
        cases ht : job.status.terminal with
        | false => simpa only [prune, hget, ht, Bool.false_eq_true, if_false] using hsame
        | true =>
          simp only [prune, hget, ht, if_true]
          rw [h.ids id job hget]
          obtain ⟨hsound, hev⟩ := remove_pruned h hget ht
          refine ⟨hsound, hev target, .of_subset fun id' j hj => ?_⟩
          rw [removeJobLocked, Dict.get?_erase] at hj
          split at hj
          · cases hj
          · exact hj

theorem shutdownSection_spec {target : Target} {named : Option String} (h : Sound limits m) (cancelPending cancelRunning : Bool) :
    Sound limits (m.shutdownSection cancelPending cancelRunning).2 ∧
      Evolves target named m (m.shutdownSection cancelPending cancelRunning).2 ∧
      Steady m (m.shutdownSection cancelPending cancelRunning).2 :=
  ⟨h.of_jobs rfl rfl (by simp [shutdownSection]), .of_jobs rfl rfl, .of_subset fun _ _ hj => hj⟩

/-- The start of pending work, of a job queued or cancelled meanwhile. -/
theorem workerStart_spec {named : Option String} (h : Sound limits m) (now : String)
    (hpending : ∀ job, m.jobs.get? id = some job → job.status = .queued ∨ job.status = .cancelled) :
    Sound limits (m.workerStart now id).2 ∧ Evolves (.known id) named m (m.workerStart now id).2 ∧
      ((m.workerStart now id).1 = true → ∀ job', (m.workerStart now id).2.jobs.get? id = some job' →
        job'.status = .running) := by
  unfold workerStart
  split
  · exact ⟨h, .of_jobs rfl rfl, by simp⟩
  next job hget =>
  obtain hs | hs := hpending job hget
  · have hid := h.ids id job hget
    simp only [hs, reduceCtorEq, if_false]
    obtain ⟨hsound, hev⟩ := @Sound.restore limits m id job { job with
        status := .running
        startedAt := some now
        progress := progressDict "starting" 0 (some 1) "正在启动仿真任务" .empty none "primary" }
      named h hid hget (by rw [hs]; rfl) (.inr (hs ▸ .start)) rfl rfl fun hc => hc
    refine ⟨hsound, hev, fun _ job' hj' => ?_⟩
    rw [RunJobManager.store, Dict.get?_insert, if_pos hid.symm] at hj'
    rw [← Option.some.inj hj']
  · simp only [hs, if_true]
    exact ⟨h, .of_jobs rfl rfl, by simp⟩

theorem updateProgress_spec {named : Option String} (h : Sound limits m) (id : String) (p : ExecutionProgress) :
    Sound limits (m.updateProgress id p) ∧ Evolves (.known id) named m (m.updateProgress id p) ∧
      Steady m (m.updateProgress id p) := by
  have hsame : Sound limits m ∧ Evolves (.known id) named m m ∧ Steady m m := ⟨h, .of_jobs rfl rfl, .of_subset fun _ _ hj => hj⟩
  unfold updateProgress
  split
  · exact hsame
  next job hget =>
  split
  · exact hsame
  next hgo =>
  have hid := h.ids id job hget
  simp only [not_or, ne_eq, not_not] at hgo
  have hstore : ∀ progress detail, Sound limits (m.store { job with progress := progress, progressDetail := detail }) ∧
      Evolves (.known id) named m (m.store { job with progress := progress, progressDetail := detail }) ∧
      Steady m (m.store { job with progress := progress, progressDetail := detail }) := by
    intro progress detail
    obtain ⟨hsound, hev⟩ := @Sound.restore limits m id job { job with progress := progress, progressDetail := detail }
      named h hid hget (by rw [hgo.1]; rfl) (.inl rfl) (by rw [hgo.1]; rfl) rfl fun hc => hc
    refine ⟨hsound, hev, fun id' j j' hj hj' => ?_⟩
    rw [RunJobManager.store, Dict.get?_insert] at hj'
    split at hj'
    · next he =>
      rw [he.trans hid] at hj
      rw [← Option.some.inj hj', Option.some.inj (hj.symm.trans hget)]
    · rw [Option.some.inj (hj.symm.trans hj')]
  simp only
  split
  · exact hstore _ _
  · exact hstore _ _

/-- A running job is marked cancelled. -/
theorem markCancelledLocked_spec {named : Option String} (h : Sound limits m) (now : String)
    (hget : m.jobs.get? id = some job) (hs : job.status = .running) :
    Sound limits ((m.markCancelledLocked now job).pruneTerminalLocked limits.maxHistory).2 ∧
      Evolves (.known id) named m ((m.markCancelledLocked now job).pruneTerminalLocked limits.maxHistory).2 := by
  have ht : job.status.terminal = false := by rw [hs]; rfl
  have hnone := h.unfinished hget ht
  obtain ⟨hsound, hev, -⟩ := @settle limits m id job
    { job with
      status := .cancelled, finishedAt := some now, report := none, result := none, error := none,
      progressDetail := none, progress := job.progress.restage "cancelled" "仿真任务已取消" }
    named h (h.ids id job hget) hget (hs ▸ .cancel) ht rfl hnone (fun hc => hc) fun _ => rfl
  exact ⟨hsound, hev⟩

theorem workerCancelled_spec {named : Option String} (h : Sound limits m) (now : String)
    (hrunning : ∀ job, m.jobs.get? id = some job → job.status = .running) :
    Sound limits (m.workerCancelled limits now id) ∧ Evolves (.known id) named m (m.workerCancelled limits now id) := by
  unfold workerCancelled
  split
  · exact ⟨h, .of_jobs rfl rfl⟩
  next job hget =>
  split
  · exact ⟨h, .of_jobs rfl rfl⟩
  exact markCancelledLocked_spec h now hget (hrunning job hget)

theorem workerFailed_spec {named : Option String} (h : Sound limits m) (now : String) (error : JobError)
    (hrunning : ∀ job, m.jobs.get? id = some job → job.status = .running) :
    Sound limits (m.workerFailed limits now id error) ∧ Evolves (.known id) named m (m.workerFailed limits now id error) := by
  unfold workerFailed
  split
  · exact ⟨h, .of_jobs rfl rfl⟩
  next job hget =>
  split
  · exact ⟨h, .of_jobs rfl rfl⟩
  next ht =>
  have hs := hrunning job hget
  have ht := Bool.eq_false_iff.2 ht
  have hnone := h.unfinished hget ht
  cases hc : job.cancelEvent with
  | true => exact markCancelledLocked_spec h now hget hs
  | false =>
    obtain ⟨hsound, hev, -⟩ := @settle limits m id job
      { job with
        status := .failed, finishedAt := some now, error := some error, progressDetail := none, cancelEvent := false,
        progress := job.progress.restage "failed" "仿真任务执行失败" }
      named h (h.ids id job hget) hget (hs ▸ .fail) ht rfl hnone
      (fun hstop => absurd hstop (by simp [hc])) fun hstop => by cases hstop
    exact ⟨hsound, hev⟩

theorem workerCompleted_spec {named : Option String} (h : Sound limits m) (now : String) (report : Json) (result : RunResult)
    (hrunning : ∀ job, m.jobs.get? id = some job → job.status = .running) :
    Sound limits (m.workerCompleted limits now id report result) ∧
      Evolves (.known id) named m (m.workerCompleted limits now id report result) := by
  unfold workerCompleted
  split
  · exact ⟨h, .of_jobs rfl rfl⟩
  next job hget =>
  split
  · exact ⟨h, .of_jobs rfl rfl⟩
  next ht =>
  have hs := hrunning job hget
  have ht := Bool.eq_false_iff.2 ht
  have hnone := h.unfinished hget ht
  cases hc : job.cancelEvent with
  | true => exact markCancelledLocked_spec h now hget hs
  | false =>
    obtain ⟨hsound, hev, -⟩ := @settle limits m id job
      { job with
        report := some report, result := some result, status := .completed, finishedAt := some now,
        cancelEvent := false, progressDetail := none,
        progress := progressDict "completed" 1 (some 1) "仿真任务已完成" .empty none "primary" }
      named h (h.ids id job hget) hget (hs ▸ .complete) ht rfl hnone
      (fun hstop => absurd hstop (by simp [hc])) fun hstop => by cases hstop
    exact ⟨hsound, hev⟩

theorem traceBegin_spec {target : Target} {named : Option String} (h : Sound limits m) (batchId : String) (flight : ℕ) :
    Sound limits (m.traceBegin id batchId flight).2 ∧ (m.traceBegin id batchId flight).2.jobs = m.jobs ∧
      Evolves target named m (m.traceBegin id batchId flight).2 := by
  unfold traceBegin
  split
  · exact ⟨h, rfl, .of_jobs rfl rfl⟩
  next result hr =>
  split
  · refine ⟨h.of_jobs rfl rfl fun key hkey => .inl (Dict.mem_keys_moveToEnd.1 hkey), rfl, .of_jobs rfl rfl⟩
  · exact ⟨h, rfl, .of_jobs rfl rfl⟩
  · exact ⟨h.of_jobs rfl rfl fun key hkey => .inl hkey, rfl, .of_jobs rfl rfl⟩

theorem isCurrent_completed {r : Replay} (h : m.isCurrent r = true) :
    ∃ job, m.jobs.get? r.key.1 = some job ∧ job.status = .completed := by
  unfold isCurrent at h
  split at h
  · cases h
  next job hget =>
  simp only [decide_eq_true_eq, Bool.and_eq_true, Bool.decide_and] at h
  exact ⟨job, hget, h.1⟩

/-- A replay enters the cache under the name of a completed job only. -/
theorem traceEnd_spec {target : Target} {named : Option String} (h : Sound limits m) (r : Replay) (built : Built) :
    Sound limits (m.traceEnd limits r built).2 ∧ (m.traceEnd limits r built).2.jobs = m.jobs ∧
      Evolves target named m (m.traceEnd limits r built).2 := by
  refine ⟨h.of_jobs rfl rfl fun key hkey => ?_, rfl, .of_jobs rfl rfl⟩
  simp only [traceEnd] at hkey
  split at hkey
  · exact .inl hkey
  next pages hout =>
  split at hkey
  · exact .inl hkey
  have hcur : m.isCurrent r = true := by
    split at hout
    · cases hout
    · split at hout
      · assumption
      · cases hout
  have hkey := Dict.mem_keys_moveToEnd.1 (Dict.mem_keys_of_keepLast hkey)
  obtain rfl | hkey := Dict.mem_keys_insert.1 hkey
  · exact .inr (isCurrent_completed hcur)
  · exact .inl hkey

end HeteroSim.Jobs
