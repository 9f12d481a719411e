/-
What one section does to the jobs. A section touches one job, the target; it
may move it along an allowed arrow, and it may drop terminal jobs, those that
finished first unless one was named. `Evolves` says so once for all sections;
`Sound` is what every section keeps.
-/
import HeteroSim.Jobs.Manager

namespace HeteroSim.Jobs

open RunJobManager

variable {limits : Limits} {m m' : RunJobManager} {id : String} {job job' : RunJob}

/-- The first job finished before the second. -/
def Before (job job' : RunJob) : Prop :=
  ∃ n n', job.finishedSequence = some n ∧ job'.finishedSequence = some n' ∧ n < n'

/-- The books of the jobs and of the trace cache, the bound on the history aside. -/
structure Books (m : RunJobManager) : Prop where
  ids : ∀ id job, m.jobs.get? id = some job → job.jobId = id
  finished : ∀ id job, m.jobs.get? id = some job → (job.status.terminal = true ↔ ∃ n, job.finishedSequence = some n)
  counter : ∀ id job n, m.jobs.get? id = some job → job.finishedSequence = some n → n ≤ m.finishedSequence
  distinct : ∀ id id' job job' n, m.jobs.get? id = some job → m.jobs.get? id' = some job' →
    job.finishedSequence = some n → job'.finishedSequence = some n → id = id'
  stopped : ∀ id job, m.jobs.get? id = some job → job.cancelEvent = true →
    job.status ≠ .completed ∧ job.status ≠ .failed
  cached : ∀ key ∈ m.traceCache.keys, ∃ job, m.jobs.get? key.1 = some job ∧ job.status = .completed

/-- What holds between sections. -/
structure Sound (limits : Limits) (m : RunJobManager) : Prop extends Books m where
  active : m.activeCount ≤ limits.maxActiveJobs
  history : m.terminalJobs.length ≤ limits.maxHistory

theorem Books.empty : Books RunJobManager.empty where
  ids := by simp [RunJobManager.empty]
  finished := by simp [RunJobManager.empty]
  counter := by simp [RunJobManager.empty]
  distinct := by simp [RunJobManager.empty]
  stopped := by simp [RunJobManager.empty]
  cached := by simp [RunJobManager.empty]

theorem Sound.empty : Sound limits RunJobManager.empty where
  toBooks := Books.empty
  active := Nat.zero_le _
  history := Nat.zero_le _

theorem mem_terminalJobs (h : Books m) : job ∈ m.terminalJobs ↔
    m.jobs.get? job.jobId = some job ∧ job.status.terminal = true := by
  simp only [terminalJobs, List.mem_filter, Dict.mem_values]
  refine and_congr_left fun _ => ⟨fun hget => ?_, fun hid => ⟨_, hid⟩⟩
  obtain ⟨id, hid⟩ := hget
  exact h.ids id job hid ▸ hid

theorem Books.sequence (h : Books m) (hget : m.jobs.get? id = some job) (ht : job.status.terminal = true) :
    ∃ n, job.finishedSequence = some n ∧ n ≤ m.finishedSequence := by
  obtain ⟨n, hn⟩ := (h.finished id job hget).1 ht
  exact ⟨n, hn, h.counter id job n hget hn⟩

theorem Books.unfinished (h : Books m) (hget : m.jobs.get? id = some job) (ht : job.status.terminal = false) :
    job.finishedSequence = none := by
  by_contra hne
  have := (h.finished id job hget).2 (Option.ne_none_iff_exists'.1 hne)
  simp [ht] at this

theorem values_jobId (h : Books m) : m.jobs.values.map RunJob.jobId = m.jobs.keys := by
  rw [Dict.values, Dict.keys, List.map_map]
  exact List.map_congr_left fun p hp => h.ids p.1 p.2 (Dict.get?_eq_some.2 hp)

theorem terminalJobs_nodup (h : Books m) : (m.terminalJobs.map RunJob.jobId).Nodup :=
  (values_jobId h ▸ m.jobs.keys_nodup).sublist (List.filter_sublist.map _)

/-! ## Storing a job -/

theorem values_store (hget : m.jobs.get? job'.jobId = some job) :
    ∃ rest, m.jobs.values.Perm (job :: rest) ∧ (m.store job').jobs.values.Perm (job' :: rest) := by
  refine ⟨(m.jobs.erase job'.jobId).values, Dict.values_perm hget, ?_⟩
  have := Dict.values_perm (Dict.get?_insert_self m.jobs job'.jobId job')
  rwa [Dict.erase_insert] at this

theorem values_store_new (hget : m.jobs.get? job'.jobId = none) :
    (m.store job').jobs.values.Perm (job' :: m.jobs.values) := by
  have := Dict.values_perm (Dict.get?_insert_self m.jobs job'.jobId job')
  rwa [Dict.erase_insert, Dict.erase_of_not_mem (Dict.get?_eq_none.1 hget)] at this

theorem activeCount_store (hget : m.jobs.get? job'.jobId = some job) (ht : job.status.terminal = false) :
    (m.store job').activeCount + (if job'.status.terminal = true then 1 else 0) = m.activeCount := by
  obtain ⟨rest, h, h'⟩ := @values_store m job job' hget
  rw [activeCount, activeCount, h.countP_eq, h'.countP_eq, List.countP_cons, List.countP_cons, ht]
  cases job'.status.terminal <;> simp

theorem terminalJobs_store (hget : m.jobs.get? job'.jobId = some job) (ht : job.status.terminal = false) :
    (m.store job').terminalJobs.length = m.terminalJobs.length + (if job'.status.terminal = true then 1 else 0) := by
  obtain ⟨rest, h, h'⟩ := @values_store m job job' hget
  rw [terminalJobs, terminalJobs, (h.filter _).length_eq, (h'.filter _).length_eq, List.filter_cons, List.filter_cons, ht]
  cases job'.status.terminal <;> simp

/-- No terminal job is at an id. -/
def Open (m : RunJobManager) (id : String) : Prop := ∀ job, m.jobs.get? id = some job → job.status.terminal = false

/-- A job stored at an open id, in any status, under a sequence of its own if it is terminal. -/
theorem Books.store (h : Books m) {c : ℕ} (hopen : Open m job'.jobId) (hc : m.finishedSequence ≤ c)
    (hfin : job'.status.terminal = true ↔ ∃ n, job'.finishedSequence = some n)
    (hseq : ∀ n, job'.finishedSequence = some n → m.finishedSequence < n ∧ n ≤ c)
    (hstop : job'.cancelEvent = true → job'.status ≠ .completed ∧ job'.status ≠ .failed) :
    Books ({ m with finishedSequence := c }.store job') where
  ids := by
    intro id j hj
    rw [RunJobManager.store, Dict.get?_insert] at hj
    split at hj
    · next he => rw [← Option.some.inj hj, he]
    · exact h.ids id j hj
  finished := by
    intro id j hj
    rw [RunJobManager.store, Dict.get?_insert] at hj
    split at hj
    · exact Option.some.inj hj ▸ hfin
    · exact h.finished id j hj
  counter := by
    intro id j n hj hn
    rw [RunJobManager.store, Dict.get?_insert] at hj
    split at hj
    · exact (hseq n (Option.some.inj hj ▸ hn)).2
    · exact (h.counter id j n hj hn).trans hc
  distinct := by
    intro id id' j j' n hj hj' hn hn'
    -- a sequence given now is above all that were given before
    rw [RunJobManager.store, Dict.get?_insert] at hj hj'
    split at hj <;> split at hj'
    · next he he' => rw [he, he']
    · have h1 := (hseq n (Option.some.inj hj ▸ hn)).1
      have h2 := h.counter id' j' n hj' hn'
      omega
    · have h1 := (hseq n (Option.some.inj hj' ▸ hn')).1
      have h2 := h.counter id j n hj hn
      omega
    · exact h.distinct id id' j j' n hj hj' hn hn'
  stopped := by
    intro id j hj hcancel
    rw [RunJobManager.store, Dict.get?_insert] at hj
    split at hj
    · have hj := Option.some.inj hj
      subst hj
      exact hstop hcancel
    · exact h.stopped id j hj hcancel
  cached := by
    intro key hkey
    obtain ⟨j, hj, hs⟩ := h.cached key hkey
    refine ⟨j, ?_, hs⟩
    rw [RunJobManager.store, Dict.get?_insert_of_ne _ _ ?_]
    · exact hj
    · intro he
      have := hopen j (he ▸ hj)
      rw [hs] at this
      cases this

/-! ## Pruning -/

theorem finishKey_lt {n n' : ℕ} (hn : job.finishedSequence = some n) (hn' : job'.finishedSequence = some n')
    (h : finishKey job ≤ finishKey job') : n ≤ n' := by
  simp only [finishKey, hn, hn', Prod.Lex.toLex_le_toLex] at h
  omega

/-- Jobs of the manager removed one after another. -/
theorem removeJobs : ∀ {L : List RunJob} {m : RunJobManager}, (∀ job ∈ L, m.jobs.get? job.jobId = some job) →
    (L.map RunJob.jobId).Nodup →
      ∃ m', L.foldl (fun m job => m.removeJobLocked job.jobId) m = m' ∧
        (∀ id, m'.jobs.get? id = if id ∈ L.map RunJob.jobId then none else m.jobs.get? id) ∧
        m.jobs.values.Perm (L ++ m'.jobs.values) ∧
        (∀ key ∈ m'.traceCache.keys, key ∈ m.traceCache.keys ∧ key.1 ∉ L.map RunJob.jobId) ∧
        m'.finishedSequence = m.finishedSequence
  | [], m, _, _ => ⟨m, rfl, by simp, .refl _, by simp, rfl⟩
  | job :: L, m, hget, hn => by
    rw [List.map_cons, List.nodup_cons] at hn
    have hrest : ∀ j ∈ L, (m.removeJobLocked job.jobId).jobs.get? j.jobId = some j := by
      intro j hj
      have hne : j.jobId ≠ job.jobId := fun he => hn.1 (List.mem_map.2 ⟨j, hj, he⟩)
      rw [removeJobLocked, Dict.get?_erase_of_ne _ hne]
      exact hget j (List.mem_cons_of_mem _ hj)
    obtain ⟨m', hm', hget', hperm, hcache, hcounter⟩ := removeJobs hrest hn.2
    refine ⟨m', hm', fun id => ?_, ?_, fun key hkey => ?_, hcounter⟩
    · rw [hget', removeJobLocked, Dict.get?_erase]
      simp only [List.map_cons, List.mem_cons]
      by_cases he : id = job.jobId
      · simp [he]
      · simp [he]
    · exact (Dict.values_perm (hget job List.mem_cons_self)).trans (hperm.cons job)
    · obtain ⟨hk, hne⟩ := hcache key hkey
      rw [removeJobLocked, Dict.mem_keys_eraseWhere, decide_eq_false_iff_not] at hk
      exact ⟨hk.1, by simp [hk.2, hne]⟩

/-- What pruning to `keep` leaves. -/
structure Pruned (m m' : RunJobManager) (keep : ℕ) : Prop where
  counter : m'.finishedSequence = m.finishedSequence
  get? : ∀ id job, m'.jobs.get? id = some job → m.jobs.get? id = some job
  removed : ∀ id job, m.jobs.get? id = some job → m'.jobs.get? id = none →
    job.status.terminal = true ∧ m'.terminalJobs.length = keep ∧ ∀ job' ∈ m'.terminalJobs, Before job job'
  active : m'.activeCount = m.activeCount
  history : m'.terminalJobs.length = min m.terminalJobs.length keep
  cached : ∀ key ∈ m'.traceCache.keys, key ∈ m.traceCache.keys ∧ ∃ job, m'.jobs.get? key.1 = some job ∧ job.status = .completed

theorem Books.mono (h : Books m) (hget : ∀ id job, m'.jobs.get? id = some job → m.jobs.get? id = some job)
    (hc : m'.finishedSequence = m.finishedSequence)
    (hcached : ∀ key ∈ m'.traceCache.keys, ∃ job, m'.jobs.get? key.1 = some job ∧ job.status = .completed) : Books m' where
  ids := fun id j hj => h.ids id j (hget id j hj)
  finished := fun id j hj => h.finished id j (hget id j hj)
  counter := fun id j n hj hn => hc ▸ h.counter id j n (hget id j hj) hn
  distinct := fun id id' j j' n hj hj' => h.distinct id id' j j' n (hget id j hj) (hget id' j' hj')
  stopped := fun id j hj => h.stopped id j (hget id j hj)
  cached := hcached

instance : Std.Total FinishedBy := ⟨fun a b => le_total (finishKey a) (finishKey b)⟩

instance : IsTrans RunJob FinishedBy := ⟨fun _ _ _ hab hbc => le_trans hab hbc⟩

theorem mem_byFinish : job ∈ m.byFinish ↔ job ∈ m.terminalJobs := List.mem_insertionSort _

theorem byFinish_sorted : m.byFinish.Pairwise FinishedBy := List.pairwise_insertionSort _ _

/-- **Pruning drops the jobs that finished first**, and as few as it may. -/
theorem pruneTerminalLocked_pruned (h : Books m) (keep : ℕ) : Pruned m (m.pruneTerminalLocked keep).2 keep := by
  have hget : ∀ job ∈ m.byFinish.take (m.terminalJobs.length - keep), m.jobs.get? job.jobId = some job := fun job hj =>
    ((mem_terminalJobs h).1 (mem_byFinish.1 (List.mem_of_mem_take hj))).1
  have hperm : m.byFinish.Perm m.terminalJobs := List.perm_insertionSort _ _
  have hnodup : (m.byFinish.map RunJob.jobId).Nodup := (hperm.map _).nodup_iff.2 (terminalJobs_nodup h)
  obtain ⟨m', hm', hget', hvalues, hcache, hcounter⟩ :=
    removeJobs hget (hnodup.sublist ((List.take_sublist _ _).map _))
  have hdef : (m.pruneTerminalLocked keep).2 = m' := hm'
  rw [hdef]
  have hall : ∀ job ∈ m.byFinish.take (m.terminalJobs.length - keep), job.status.terminal = true := fun job hj =>
    ((mem_terminalJobs h).1 (mem_byFinish.1 (List.mem_of_mem_take hj))).2
  have hlen : (m.byFinish.take (m.terminalJobs.length - keep)).length = m.terminalJobs.length - keep := by
    rw [List.length_take, hperm.length_eq]
    omega
  have hterminal : m.terminalJobs.length = m.terminalJobs.length - keep + m'.terminalJobs.length := by
    have := (hvalues.filter fun job => job.status.terminal).length_eq
    rwa [List.filter_append, List.filter_eq_self.2 hall, List.length_append, hlen] at this
  have hsub : ∀ id job, m'.jobs.get? id = some job → m.jobs.get? id = some job := by
    intro id job hj
    rw [hget'] at hj
    split at hj
    · cases hj
    · exact hj
  have hcached : ∀ key ∈ m'.traceCache.keys, ∃ job, m'.jobs.get? key.1 = some job ∧ job.status = .completed := by
    intro key hkey
    obtain ⟨hold, hne⟩ := hcache key hkey
    obtain ⟨job, hj, hs⟩ := h.cached key hold
    exact ⟨job, by rw [hget', if_neg hne, hj], hs⟩
  have hbooks := h.mono hsub hcounter hcached
  refine ⟨hcounter, hsub, fun id job hj hnone => ?_, ?_, by omega, fun key hkey => ⟨(hcache key hkey).1, hcached key hkey⟩⟩
  · have hmem : job ∈ m.byFinish.take (m.terminalJobs.length - keep) := by
      by_contra hnot
      rw [hget', if_neg, hj] at hnone
      · cases hnone
      · intro hid
        obtain ⟨j, hjm, he⟩ := List.mem_map.1 hid
        rw [← he, hget j hjm] at hj
        exact hnot (Option.some.inj hj ▸ hjm)
    have hpos := List.length_pos_of_mem hmem
    refine ⟨hall job hmem, by omega, fun job' hjob' => ?_⟩
    obtain ⟨hj', ht'⟩ := (mem_terminalJobs hbooks).1 hjob'
    -- a job that is left stands behind the removed ones in the sorted list
    have hdrop : job' ∈ m.byFinish.drop (m.terminalJobs.length - keep) := by
      have hin := mem_byFinish.2 ((mem_terminalJobs h).2 ⟨hsub _ _ hj', ht'⟩)
      rw [← List.take_append_drop (m.terminalJobs.length - keep) m.byFinish] at hin
      refine (List.mem_append.1 hin).resolve_left fun hin => ?_
      rw [hget', if_pos (List.mem_map_of_mem hin)] at hj'
      cases hj'
    have hsorted := @byFinish_sorted m
    rw [← List.take_append_drop (m.terminalJobs.length - keep) m.byFinish, List.pairwise_append] at hsorted
    obtain ⟨n, hn, -⟩ := h.sequence hj (hall job hmem)
    obtain ⟨n', hn', -⟩ := h.sequence (hsub _ _ hj') ht'
    refine ⟨n, n', hn, hn', lt_of_le_of_ne (finishKey_lt hn hn' (hsorted.2.2 _ hmem _ hdrop)) fun he => ?_⟩
    have hid := h.distinct id job'.jobId job job' n hj (hsub _ _ hj') hn (he ▸ hn')
    rw [← hid, hnone] at hj'
    cases hj'
  · have hnone : (m.byFinish.take (m.terminalJobs.length - keep)).countP (fun job => !job.status.terminal) = 0 :=
      List.countP_eq_zero.2 fun job hj => by simp [hall job hj]
    have := hvalues.countP_eq fun job => !job.status.terminal
    rw [List.countP_append, hnone, Nat.zero_add] at this
    exact this.symm

theorem Books.pruned {keep : ℕ} (h : Books m) (hp : Pruned m m' keep) : Books m' :=
  h.mono hp.get? hp.counter fun key hkey => (hp.cached key hkey).2

/-! ## What a section does -/

/-- The allowed changes of a status. -/
inductive Moves : Status → Status → Prop
  | start : Moves .queued .running
  | withdraw : Moves .queued .cancelled
  | complete : Moves .running .completed
  | fail : Moves .running .failed
  | cancel : Moves .running .cancelled

/-- How one job goes on: a terminal one stays as it is, an active one may move. -/
structure Follows (counter : ℕ) (job job' : RunJob) : Prop where
  moves : job'.status = job.status ∨ Moves job.status job'.status
  frozen : job.status.terminal = true → job' = job
  cancel : job.cancelEvent = true → job'.cancelEvent = true
  sequence : job.status.terminal = false → job'.status.terminal = true → ∃ n, job'.finishedSequence = some n ∧ counter < n

theorem Follows.refl (counter : ℕ) (job : RunJob) : Follows counter job job where
  moves := .inl rfl
  frozen := fun _ => rfl
  cancel := fun h => h
  sequence := by
    intro hf ht
    rw [hf] at ht
    cases ht

/-- The job a section is about: one it looks up, or a new one. -/
inductive Target
  | known (id : String)
  | arriving (id : String)

def Target.jobId : Target → String
  | .known id | .arriving id => id

/-- What a section does to the jobs: one is its target, one may be `named` for removal. -/
structure Evolves (target : Target) (named : Option String) (m m' : RunJobManager) : Prop where
  counter : m.finishedSequence ≤ m'.finishedSequence
  follows : ∀ id job, m.jobs.get? id = some job →
    (∃ job', m'.jobs.get? id = some job' ∧ Follows m.finishedSequence job job') ∨
      m'.jobs.get? id = none ∧ job.status.terminal = true ∧
        (named = some id ∨ ∀ job' ∈ m'.terminalJobs, Before job job')
  frame : ∀ id job', id ≠ target.jobId → m'.jobs.get? id = some job' → m.jobs.get? id = some job'
  arrives : ∀ id job', m.jobs.get? id = none → m'.jobs.get? id = some job' → target = .arriving id ∧ job'.status = .queued

theorem Evolves.of_jobs {target : Target} {named : Option String} (hjobs : m'.jobs = m.jobs)
    (hc : m'.finishedSequence = m.finishedSequence) : Evolves target named m m' where
  counter := hc.ge
  follows := fun id job hj => .inl ⟨job, hjobs ▸ hj, .refl _ job⟩
  frame := fun id job' _ hj => hjobs ▸ hj
  arrives := by
    intro id job' hnone hj
    rw [hjobs, hnone] at hj
    cases hj

theorem Evolves.store {target : Target} {named : Option String} {c : ℕ} (hid : target.jobId = job'.jobId)
    (hc : m.finishedSequence ≤ c)
    (hfollows : ∀ job, m.jobs.get? job'.jobId = some job → Follows m.finishedSequence job job')
    (harrives : m.jobs.get? job'.jobId = none → target = .arriving job'.jobId ∧ job'.status = .queued) :
    Evolves target named m ({ m with finishedSequence := c }.store job') where
  counter := hc
  follows := by
    intro id job hj
    refine .inl ?_
    rw [RunJobManager.store, Dict.get?_insert]
    split
    · next he => exact ⟨job', rfl, hfollows job (he ▸ hj)⟩
    · exact ⟨job, hj, .refl _ job⟩
  frame := by
    intro id j hne hj
    rwa [RunJobManager.store, Dict.get?_insert_of_ne _ _ (hid ▸ hne)] at hj
  arrives := by
    intro id j hnone hj
    rw [RunJobManager.store, Dict.get?_insert] at hj
    split at hj
    · next he =>
      rw [he] at hnone ⊢
      exact Option.some.inj hj ▸ harrives hnone
    · rw [hnone] at hj
      cases hj

/-- Pruning alone. -/
theorem Pruned.evolves {keep : ℕ} {target : Target} {named : Option String} (hp : Pruned m m' keep) :
    Evolves target named m m' where
  counter := hp.counter.ge
  follows := by
    intro id job hj
    cases hj' : m'.jobs.get? id with
    | none =>
      obtain ⟨ht, -, hbefore⟩ := hp.removed id job hj hj'
      exact .inr ⟨rfl, ht, .inr hbefore⟩
    | some job' =>
      have := hp.get? id job' hj'
      rw [hj] at this
      exact .inl ⟨job', rfl, Option.some.inj this ▸ .refl _ job⟩
  frame := fun id job' _ hj => hp.get? id job' hj
  arrives := by
    intro id job' hnone hj
    rw [hp.get? _ _ hj] at hnone
    cases hnone

/-- Pruning behind a section that has given out the last sequence. -/
theorem Evolves.pruned {m₁ : RunJobManager} {keep : ℕ} {target : Target} {named : Option String}
    (he : Evolves target named m m₁) (hp : Pruned m₁ m' keep) (hkeep : 0 < keep) (h₁ : Books m₁)
    (hlast : ∀ id job job₁ n, m.jobs.get? id = some job → job.status.terminal = false → m₁.jobs.get? id = some job₁ →
      job₁.finishedSequence = some n → m₁.finishedSequence ≤ n) : Evolves target named m m' where
  counter := he.counter.trans hp.counter.ge
  follows := by
    intro id job hj
    obtain ⟨job₁, hj₁, hf⟩ | ⟨hnone, ht, hor⟩ := he.follows id job hj
    · cases hj' : m'.jobs.get? id with
      | some job' =>
        have := hp.get? id job' hj'
        rw [hj₁] at this
        exact .inl ⟨job', rfl, Option.some.inj this ▸ hf⟩
      | none =>
        obtain ⟨ht₁, hcount, hbefore⟩ := hp.removed id job₁ hj₁ hj'
        cases hterm : job.status.terminal with
        | true =>
          have := hf.frozen hterm
          subst this
          exact .inr ⟨rfl, rfl, .inr hbefore⟩
        | false =>
          -- the job that has just finished is the newest, and one is kept
          obtain ⟨newest, hnewest⟩ : ∃ job', job' ∈ m'.terminalJobs := List.exists_mem_of_length_pos (hcount ▸ hkeep)
          obtain ⟨n, n', hn, hn', hlt⟩ := hbefore newest hnewest
          have h1 := hlast id job job₁ n hj hterm hj₁ hn
          have hget := ((mem_terminalJobs (h₁.pruned hp)).1 hnewest).1
          have h2 := h₁.counter _ _ _ (hp.get? _ _ hget) hn'
          omega
    · cases hj' : m'.jobs.get? id with
      | some job' =>
        rw [hp.get? id job' hj'] at hnone
        cases hnone
      | none =>
        refine .inr ⟨rfl, ht, hor.imp_right fun hall job' hjob' => hall job' ?_⟩
        obtain ⟨hget, hterm⟩ := (mem_terminalJobs (h₁.pruned hp)).1 hjob'
        exact (mem_terminalJobs h₁).2 ⟨hp.get? _ _ hget, hterm⟩
  frame := fun id job' hne hj => he.frame id job' hne (hp.get? id job' hj)
  arrives := by
    intro id job' hnone hj
    exact he.arrives id job' hnone (hp.get? _ job' hj)

/-- **A job made terminal**, and the history cut to its bound. -/
theorem settle {named : Option String} (h : Sound limits m) (hid : job'.jobId = id)
    (hget : m.jobs.get? id = some job) (hmoves : Moves job.status job'.status) (ht : job.status.terminal = false)
    (ht' : job'.status.terminal = true) (hseq : job'.finishedSequence = none) (hcancel : job.cancelEvent = true → job'.cancelEvent = true)
    (hstop : job'.cancelEvent = true → job'.status = .cancelled) :
    Sound limits ((m.recordTerminalLocked job').pruneTerminalLocked limits.maxHistory).2 ∧
      Evolves (.known id) named m ((m.recordTerminalLocked job').pruneTerminalLocked limits.maxHistory).2 ∧
      ∀ j, ((m.recordTerminalLocked job').pruneTerminalLocked limits.maxHistory).2.jobs.get? id = some j →
        j.status = job'.status ∧ j.cancelEvent = job'.cancelEvent := by
  subst hid
  let final := { job' with finishedSequence := some (m.finishedSequence + 1) }
  have hrecord : m.recordTerminalLocked job' = { m with finishedSequence := m.finishedSequence + 1 }.store final := by
    rw [recordTerminalLocked, hseq]
  have hopen : Open m final.jobId := fun j hj => by
    rw [hget] at hj
    exact Option.some.inj hj ▸ ht
  have hbooks : Books (m.recordTerminalLocked job') := by
    rw [hrecord]
    refine h.toBooks.store hopen (Nat.le_succ _) ⟨fun _ => ⟨_, rfl⟩, fun _ => ht'⟩ (fun n hn => ?_) fun hc => ?_
    · have := Option.some.inj hn
      omega
    · have := hstop hc
      change job'.status ≠ .completed ∧ job'.status ≠ .failed
      rw [this]
      exact ⟨by decide, by decide⟩
  have hactive : (m.recordTerminalLocked job').activeCount + 1 = m.activeCount := by
    have hcount := @activeCount_store m job final hget ht
    rw [if_pos (show final.status.terminal = true from ht')] at hcount
    rw [hrecord]
    exact hcount
  have hp := pruneTerminalLocked_pruned hbooks limits.maxHistory
  refine ⟨⟨hbooks.pruned hp, ?_, hp.history ▸ min_le_right _ _⟩, ?_, fun j hj => ?_⟩
  · have h1 := hp.active
    have h2 := h.active
    omega
  · refine Evolves.pruned ?_ hp limits.history_pos hbooks fun id j j₁ n hj hterm hj₁ hn => ?_
    · rw [hrecord]
      refine @Evolves.store m final (.known _) named _ rfl (Nat.le_succ _) (fun j hj => ?_) fun hnone => ?_
      · have hj : job = j := Option.some.inj (hget.symm.trans hj)
        subst hj
        refine ⟨.inr hmoves, fun hterm => ?_, hcancel, fun _ _ => ⟨_, rfl, Nat.lt_succ_self _⟩⟩
        rw [ht] at hterm
        cases hterm
      · rw [hget] at hnone
        cases hnone
    · rw [hrecord, RunJobManager.store, Dict.get?_insert] at hj₁
      rw [hrecord]
      split at hj₁
      · have hj₁ := Option.some.inj hj₁
        subst hj₁
        exact (Option.some.inj hn).le
      · have : j = j₁ := Option.some.inj (hj.symm.trans hj₁)
        subst this
        rw [h.unfinished hj hterm] at hn
        cases hn
  · have hj := hp.get? _ j hj
    rw [hrecord, RunJobManager.store, Dict.get?_insert_self] at hj
    rw [← Option.some.inj hj]
    exact ⟨rfl, rfl⟩

end HeteroSim.Jobs
