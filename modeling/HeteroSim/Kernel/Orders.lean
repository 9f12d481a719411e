/-
The order of submissions. What a kernel executes depends on what it was given,
neither on the order it was given in nor on how that was cut into chunks: the
heaps differ, and nothing that is executed.
-/
import HeteroSim.Kernel.Runs

namespace HeteroSim.Kernel.UnifiedEventKernel

open ListScheduling

variable {devices : Devices} {k k' l l' m : UnifiedEventKernel} {a : ActiveTask} {event : KernelEvent} {events : List KernelEvent}
  {given more more' : List ScheduledTask} {id : String} {t : ScheduledTask}

/-- Submissions one after another, and all that they submit. -/
inductive Submits : UnifiedEventKernel → List ScheduledTask → UnifiedEventKernel → Prop
  | nil {k : UnifiedEventKernel} : Submits k [] k
  | submit {k chunk retained receipt k₁ given k'} : (∀ t ∈ chunk, t.Ordinary) → submit chunk retained k = .ok receipt k₁ →
    Submits k₁ given k' → Submits k (chunk ++ given) k'

/-- Kernels that differ in their queues and in what they were asked to retain. -/
structure Alike (k l : UnifiedEventKernel) : Prop where
  calendar : l.calendar = k.calendar
  completedEnd : l.completedEnd = k.completedEnd
  tasks : ∀ id, l.taskOf id = k.taskOf id
  makespanNs : l.makespanNs = k.makespanNs
  events : l.events = k.events

/-! ## What is submitted -/

/-- What waits after a submission is what it submitted, and what had waited. -/
theorem Submitted.waiting (hs : k.Submitted more k') (h : k.Sound) :
    k'.taskOf id = some t ↔ (t ∈ more ∧ t.taskId = id) ∨ k.taskOf id = some t := by
  rw [taskOf, hs.tasks]
  by_cases hid : id ∈ idsOf more
  · obtain ⟨t', hmem, rfl⟩ := List.mem_map.1 hid
    have hfresh : k.taskOf t'.taskId = none := by
      by_contra hwaiting
      exact hs.accepted.fresh _ hid (h.linked.seen _ (.inl (taskOf_ne_none.1 hwaiting)))
    rw [find?_chunk hs.accepted hmem, Option.some_or, hfresh]
    simp only [Option.some.injEq, reduceCtorEq, or_false]
    constructor
    · rintro rfl
      exact ⟨hmem, rfl⟩
    · exact fun ht => (List.inj_on_of_nodup_map hs.accepted.nodup ht.1 hmem ht.2).symm
  · rw [List.find?_eq_none.2 fun t ht hsame => hid (List.mem_map.2 ⟨t, ht, of_decide_eq_true hsame⟩), Option.none_or]
    exact (or_iff_right fun ht => hid (List.mem_map.2 ⟨t, ht⟩)).symm

theorem Submits.spec (hs : Submits k given k') : k.Sound → k'.Sound ∧ k'.calendar = k.calendar ∧ k'.completedEnd = k.completedEnd ∧
    k'.makespanNs = k.makespanNs ∧ k'.events = k.events ∧
    ∀ id t, k'.taskOf id = some t ↔ (t ∈ given ∧ t.taskId = id) ∨ k.taskOf id = some t := by
  induction hs with
  | nil => exact fun h => ⟨h, rfl, rfl, rfl, rfl, fun id t => (or_iff_right fun ht => absurd ht.1 List.not_mem_nil).symm⟩
  | submit hord hok _ ih =>
    intro h
    obtain ⟨hsound, hsub⟩ := h.submitted hord hok
    obtain ⟨hlast, hcalendar, hended, hmakespan, hevents, htasks⟩ := ih hsound
    refine ⟨hlast, hcalendar.trans hsub.calendar, hended.trans hsub.completedEnd, hmakespan.trans hsub.makespanNs,
      hevents.trans hsub.events, fun id t => ?_⟩
    rw [htasks, hsub.waiting h, List.mem_append, or_and_right, or_left_comm, or_assoc]

/-- Submissions of the same tasks leave kernels alike. -/
theorem Submits.alike (h : k.Sound) (hl : Submits k more l) (hl' : Submits k more' l') (hperm : more.Perm more') : Alike l l' := by
  obtain ⟨-, hcalendar, hended, hmakespan, hevents, htasks⟩ := hl.spec h
  obtain ⟨-, hcalendar', hended', hmakespan', hevents', htasks'⟩ := hl'.spec h
  refine ⟨hcalendar'.trans hcalendar.symm, hended'.trans hended.symm, fun id => Option.ext fun t => ?_, hmakespan'.trans hmakespan.symm,
    hevents'.trans hevents.symm⟩
  rw [htasks, htasks', hperm.mem_iff]

/-! ## What is executed -/

theorem Alike.schedule (hsame : Alike k l) : l.schedule = k.schedule := by
  have hwaiting : l.schedule.waiting = k.schedule.waiting := funext fun id => by
    rw [waiting_eq, waiting_eq, hsame.calendar]
    exact congrArg (Option.map k.calendar.job) (hsame.tasks id)
  have hboard : l.schedule.board = k.schedule.board := by
    rw [UnifiedEventKernel.schedule, UnifiedEventKernel.schedule, hsame.calendar, hsame.completedEnd]
  exact congrArg₂ Schedule.mk hwaiting hboard

/-- **A step of one is a step of the other.** -/
theorem Alike.step (hsame : Alike k l) (h : k.Sound) (hl : l.Sound) (hx : k.Executed a event k') :
    ∃ l', UnifiedEventKernel.step devices l = .ok (some event) l' ∧ l'.Sound ∧ Alike k' l' := by
  obtain ⟨hlists, -⟩ := h.lists hx
  rcases step_ok devices hl with ⟨heap, versions, -, -, hidle⟩ | ⟨b, other, l', hstep, hsound, hy⟩
  · obtain ⟨b, hb, -⟩ := hl.ready_iff.1 (hsame.schedule ▸ hlists.next.1)
    exact (hidle b hb).elim
  · obtain ⟨hlists', -⟩ := hl.lists hy
    have hother := hlists'.next
    rw [hsame.schedule] at hother
    -- both are least, so they have one key, and the key names the task
    have hkey : keyOf k.calendar a = keyOf l.calendar b := by
      rw [← h.key hx.ready.1, ← hl.key hy.ready.1, hsame.schedule]
      exact le_antisymm (hlists.next.2 _ _ hother.1) (hother.2 _ _ hlists.next.1)
    have hid : a.task.taskId = b.task.taskId := congrArg (fun key : InternalReadyKey => keyTaskId (ofLex key).2) hkey
    have htask : b.task = a.task := by
      have hb : l.taskOf b.task.taskId = some b.task := congrArg (Option.map ActiveTask.task) hy.ready.1
      rw [← hid, hsame.tasks] at hb
      exact Option.some.inj (hb.symm.trans (congrArg (Option.map ActiveTask.task) hx.ready.1))
    rw [hsame.schedule, hsame.calendar, htask] at hlists'
    have hstart := hlists'.startNs.trans hlists.startNs.symm
    have heffective := hlists'.effectiveReadyNs.trans hlists.effectiveReadyNs.symm
    have haccount := hy.account
    rw [hsame.calendar, htask, hstart, heffective, ← hx.account] at haccount
    obtain ⟨hcalendar, hbill⟩ := Prod.mk.inj haccount
    have hdemands : other.demands = event.demands := by rw [hy.demands, hx.demands, htask]
    have hevent : other = event := calc
      other = ⟨other.task, other.startNs, other.dependencyReadyNs, other.effectiveReadyNs, other.demands, other.bill⟩ := rfl
      _ = event := by
        rw [hy.task.trans (htask.trans hx.task.symm), hdemands, hstart, heffective, hbill,
          hlists'.dependencyReadyNs.trans hlists.dependencyReadyNs.symm]
    subst hevent
    refine ⟨l', hstep, hsound, hcalendar, ?_, fun id => ?_, ?_, ?_⟩
    · rw [hy.completedEnd, hx.completedEnd, hsame.completedEnd, htask]
    · rw [taskOf, taskOf, hy.tasks, hx.tasks, htask]
      exact if_congr Iff.rfl rfl (hsame.tasks id)
    · rw [hy.makespanNs, hx.makespanNs, hsame.makespanNs]
    · rw [hy.events, hx.events, hsame.events]

theorem Drained.alike (hd : Drained devices k events k') : ∀ {l : UnifiedEventKernel}, k.Sound → l.Sound → Alike k l →
    ∃ l', Drained devices l events l' ∧ Alike k' l' := by
  induction hd with
  | nil => exact fun _ _ hsame => ⟨_, .nil, hsame⟩
  | step hok _ ih =>
    intro l h hl hsame
    rcases step_ok devices h with ⟨heap, versions, hstep, hsound, -⟩ | ⟨a, event, k₁, hstep, hsound, hx⟩
    · obtain ⟨rfl, rfl⟩ := EStateM.Result.ok.inj (hstep.symm.trans hok)
      exact ih hsound hl ⟨hsame.calendar, hsame.completedEnd, hsame.tasks, hsame.makespanNs, hsame.events⟩
    · obtain ⟨rfl, rfl⟩ := EStateM.Result.ok.inj (hstep.symm.trans hok)
      obtain ⟨l₁, hnext, hl₁, hsame'⟩ := hsame.step h hl hx
      obtain ⟨l', hdrained, hlast⟩ := ih hsound hl₁ hsame'
      exact ⟨l', .step hnext hdrained, hlast⟩

/-- **In whatever order the same tasks are submitted, and in whatever chunks,
the same steps follow: the events are equal, with their times, lanes and
predecessors, and so are the clocks and totals of the resources.** -/
theorem submission_order (h : Reached devices given k) (hl : Submits k more l) (hl' : Submits k more' l') (hperm : more.Perm more')
    (hd : Drained devices l events m) : ∃ m', Drained devices l' events m' ∧ Alike m m' := by
  have hk := h.sound
  exact hd.alike (hl.spec hk).1 (hl'.spec hk).1 (hl.alike hk hl' hperm)

theorem submission_order_threeTasks : ∃ k l l' events m m', Submits k threeTasks l ∧ Submits k threeTasks.reverse l' ∧
    Drained (fun _ _ _ _ => .error .key) l events m ∧ Drained (fun _ _ _ _ => .error .key) l' events m' ∧ Alike m m' := by
  obtain ⟨k, hcreate⟩ : ∃ k, create .empty .empty = .ok k := ⟨_, rfl⟩
  have hsound := (create_sound hcreate).1
  have hord : ∀ t ∈ threeTasks.reverse, t.Ordinary := fun t ht => threeTasks_ordinary t (List.mem_reverse.1 ht)
  have hchecked : (create .empty .empty >>= fun k => k.checkChunk threeTasks [] >>= fun _ => k.checkChunk threeTasks.reverse []) = .ok () := by
    decide +kernel
  rw [hcreate] at hchecked
  obtain ⟨_, hcheck, hcheck'⟩ := bind_ok.1 (show (k.checkChunk threeTasks [] >>= fun _ => k.checkChunk threeTasks.reverse []) = .ok () from hchecked)
  obtain ⟨receipt, l, hsubmit, hl, -⟩ := submit_ok hsound threeTasks_ordinary hcheck
  obtain ⟨receipt', l', hsubmit', -⟩ := submit_ok hsound hord hcheck'
  obtain ⟨events, m, hdrained, -⟩ := hl.finishes (fun _ _ _ _ => .error .key) le_rfl
  have hone : Submits k threeTasks l := .submit threeTasks_ordinary hsubmit .nil
  have hother : Submits k threeTasks.reverse l' := .submit hord hsubmit' .nil
  obtain ⟨m', hdrained', hsame⟩ := submission_order (.create hcreate) hone hother (List.reverse_perm _).symm hdrained
  exact ⟨k, l, l', events, m, m', hone, hother, hdrained, hdrained', hsame⟩

end HeteroSim.Kernel.UnifiedEventKernel
