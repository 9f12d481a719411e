/-
Progress and ageing of the bounded scheduler: the window always has an entry
to execute, only the core may raise, and an entry that could be executed and
was passed as often as the window is wide is not passed again.
-/
import HeteroSim.Address.Sound
import HeteroSim.Raising
import HeteroSim.Task.Window

namespace HeteroSim.Task

open HeteroSim.Address

variable {σ : Type}

namespace Controller

variable (c : Controller) (core : Core σ)

/-! ## One decision -/

/-- The entries no earlier pending one contends with, and when each is ready. -/
def ranked (w : Window) (s : σ) : List (Pending × ℚ) := candidates (c.ready core w s) [] w.pending

/-- The time of the decision: the clock, or when the first entry is ready. -/
def decisionTime (w : Window) (s : σ) : ℚ := max w.now (((c.ranked core w s).map Prod.snd).min?.getD w.now)

/-- What may be executed at the decision. -/
def available (w : Window) (s : σ) : List Pending :=
  ((c.ranked core w s).filter fun entry => decide (entry.2 ≤ c.decisionTime core w s)).map Prod.fst

/-- The request as it is given to the core. -/
def issued (w : Window) (s : σ) (e : Pending) : AccessRequest :=
  e.request.arriving (max e.request.arrival (c.decisionTime core w s))

variable {c core} {w : Window} {s : σ}

theorem candidates_ne_nil (ready : Pending → ℚ) {pending : List Pending} (h : pending ≠ []) :
    candidates ready [] pending ≠ [] := by
  cases pending with
  | nil => exact absurd rfl h
  | cons e rest =>
    -- nothing stands before the oldest entry
    have hfree : blocked [] e = false := rfl
    rw [candidates, hfree]
    exact List.cons_ne_nil _ _

theorem available_ne_nil (h : w.pending ≠ []) : c.available core w s ≠ [] := by
  have hranked : (c.ranked core w s).map Prod.snd ≠ [] := fun hnil =>
    candidates_ne_nil (c.ready core w s) h (List.map_eq_nil_iff.1 hnil)
  obtain ⟨first, hfirst⟩ := Option.ne_none_iff_exists'.1 (fun hnone => hranked (List.min?_eq_none_iff.1 hnone))
  obtain ⟨entry, hentry, htime⟩ := List.mem_map.1 (List.min?_mem hfirst)
  refine List.ne_nil_of_mem (a := entry.1) (List.mem_map.2 ⟨entry, List.mem_filter.2 ⟨hentry, decide_eq_true ?_⟩, rfl⟩)
  rw [decisionTime, hfirst, htime]
  exact le_max_right _ _

variable (core) in
/-- The policy picks from what is available, if mapping an address does not
fail. -/
theorem select_some {available : List Pending} (h : available ≠ [])
    (hmaps : c.geometry.scheduler = .rowHitFirst → ∀ e ∈ available, ∃ m, mapDramAddress c.geometry e.request.address = .ok m) :
    ∃ e, c.select core s available = .ok (some e) := by
  unfold select
  dsimp only
  split
  · next haged =>
    obtain ⟨e, l, hl⟩ := List.exists_cons_of_ne_nil haged
    exact ⟨e, by rw [hl]; rfl⟩
  · obtain ⟨k, l, rfl⟩ := List.exists_cons_of_ne_nil h
    split
    · next hrow =>
      have hhit : ∀ l : List Pending, (∀ e ∈ l, ∃ m, mapDramAddress c.geometry e.request.address = .ok m) →
          ∃ hit, c.firstHit core s l = .ok hit := by
        intro l
        induction l with
        | nil => exact fun _ => ⟨none, rfl⟩
        | cons e l ih =>
          intro hall
          obtain ⟨m, hm⟩ := hall e List.mem_cons_self
          obtain ⟨hit, htail⟩ := ih fun k hk => hall k (List.mem_cons_of_mem _ hk)
          unfold firstHit
          by_cases hopen : core.openRow m s = some m.row
          · exact ⟨some e, bind_ok.2 ⟨m, hm, by rw [if_pos hopen]; rfl⟩⟩
          · exact ⟨hit, bind_ok.2 ⟨m, hm, by rw [if_neg hopen]; exact htail⟩⟩
      obtain ⟨hit, hfirst⟩ := hhit _ (hmaps hrow)
      cases hit with
      | none => exact ⟨k, bind_ok.2 ⟨none, hfirst, rfl⟩⟩
      | some e => exact ⟨e, bind_ok.2 ⟨some e, hfirst, rfl⟩⟩
    · obtain ⟨e, l', hl'⟩ : ∃ e l', c.byDirection core s (k :: l) = e :: l' := by
        refine List.exists_cons_of_ne_nil ?_
        unfold byDirection
        dsimp only
        split
        · next hopposite => exact hopposite.2
        · split
          · next hsame => exact hsame
          · exact List.cons_ne_nil _ _
      exact ⟨e, by rw [hl']; rfl⟩

/-- **A decision executes one available entry**, and answers as the core does. -/
theorem scheduleStep_eq {e : Pending} (h : w.pending ≠ []) (he : c.select core s (c.available core w s) = .ok (some e)) :
    c.scheduleStep core w s = (core.submit (c.issued core w s e) >>= fun completion => get >>= fun s' =>
      pure (c.complete w e (max (c.decisionTime core w s) (core.acceptance s'))
        ⟨e.index, c.issued core w s e, completion⟩)) s := by
  have hranked : (c.ranked core w s).map Prod.snd ≠ [] := fun hnil =>
    candidates_ne_nil (c.ready core w s) h (List.map_eq_nil_iff.1 hnil)
  obtain ⟨first, hfirst⟩ := Option.ne_none_iff_exists'.1 (fun hnone => hranked (List.min?_eq_none_iff.1 hnone))
  have hnow : max w.now first = c.decisionTime core w s := by rw [decisionTime, hfirst]; rfl
  unfold scheduleStep
  rw [get_then]
  have hraise : ((((candidates (c.ready core w s) [] w.pending).map Prod.snd).min?.elim
      (.error "min() arg is an empty sequence") .ok) : Except String ℚ) = .ok first := by
    have hfirst : ((candidates (c.ready core w s) [] w.pending).map Prod.snd).min? = some first := hfirst
    rw [hfirst]
    rfl
  rw [ok_bind (raise_ok hraise), hnow]
  have hselect : c.select core s (((candidates (c.ready core w s) [] w.pending).filter fun entry =>
      decide (entry.2 ≤ c.decisionTime core w s)).map Prod.fst) = .ok (some e) := he
  exact (ok_bind (raise_ok hselect)).trans (ok_bind (raise_ok rfl))

/-! ## Progress -/

/-- A valid request of the row-hit policy is mapped. -/
theorem maps_of_valid {r : AccessRequest} (hr : validateDramRequest r c.geometry = .ok ())
    (hpolicy : c.geometry.scheduler = .rowHitFirst) : ∃ m, mapDramAddress c.geometry r.address = .ok m := by
  have hgeometry := geometry_of_validate c.accepted
  have hinside : r.address < c.geometry.effectiveCapacityBytes := by
    simp only [validateDramRequest, bind_ok, refuse_ok, checkAddress] at hr
    obtain ⟨_, _, _, hinside, _⟩ := hr
    exact Nat.not_le.1 hinside
  have hplain : ¬c.geometry.beyondSids r.address := by
    rintro ⟨hsid, -⟩
    have haccepted := c.accepted
    simp only [DramConfig.validate, bind_ok, refuse_ok, positiveInt_ok, exists_and_left, exists_const] at haccepted
    refine haccepted.2.1 ⟨.inl hsid, .inl ?_⟩
    rw [hpolicy]
    rintro ⟨-, hfr, -⟩
    cases hfr
  obtain ⟨_, m, hm, _⟩ := (mapDramAddress_spec hgeometry hinside).2 hplain
  exact ⟨m, hm⟩

theorem mem_pending_of_available {e : Pending} (he : e ∈ c.available core w s) : e ∈ w.pending := by
  obtain ⟨entry, hentry, rfl⟩ := List.mem_map.1 he
  obtain ⟨pre, post, hpending, -⟩ := mem_candidates (List.mem_of_mem_filter hentry)
  rw [hpending]
  exact List.mem_append_right _ List.mem_cons_self

variable (core) in
/-- **The window never gets stuck**: while an entry waits, one is executed or
the core raises. -/
theorem scheduleStep_cases (h : w.pending ≠ [])
    (hvalid : ∀ e ∈ w.pending, validateDramRequest e.request c.geometry = .ok ()) :
    ∃ e, c.select core s (c.available core w s) = .ok (some e) ∧
      ((∃ completion s', core.submit (c.issued core w s e) s = .ok completion s' ∧
          c.scheduleStep core w s = .ok (c.complete w e (max (c.decisionTime core w s) (core.acceptance s'))
            ⟨e.index, c.issued core w s e, completion⟩) s') ∨
        ∃ error s', core.submit (c.issued core w s e) s = .error error s' ∧ c.scheduleStep core w s = .error error s') := by
  obtain ⟨e, he⟩ := select_some core (s := s) (available_ne_nil (s := s) h) fun hpolicy e he =>
    maps_of_valid (hvalid e (mem_pending_of_available he)) hpolicy
  refine ⟨e, he, ?_⟩
  rw [scheduleStep_eq h he]
  cases hsubmit : core.submit (c.issued core w s e) s with
  | ok completion s' => exact .inl ⟨completion, s', rfl, ok_bind hsubmit⟩
  | error error s' => exact .inr ⟨error, s', rfl, error_bind hsubmit⟩

/-- An entry passed as often as the window is wide goes first. -/
theorem select_aged {available : List Pending} {e : Pending} (he : c.select core s available = .ok (some e))
    (hsorted : available.Pairwise fun a b => a.index < b.index) {k : Pending} (hk : k ∈ available)
    (hage : c.schedulerWindow ≤ k.age) : e.index ≤ k.index := by
  unfold select at he
  dsimp only at he
  have haged : k ∈ available.filter fun e => decide (c.schedulerWindow ≤ e.age) :=
    List.mem_filter.2 ⟨hk, decide_eq_true hage⟩
  rw [if_pos (List.ne_nil_of_mem haged)] at he
  have hsub := hsorted.filter fun e => decide (c.schedulerWindow ≤ e.age)
  cases hl : available.filter fun e => decide (c.schedulerWindow ≤ e.age) with
  | nil => rw [hl] at he; cases he
  | cons first l =>
    rw [hl] at he haged hsub
    obtain rfl : first = e := Option.some.inj (Except.ok.inj he)
    rcases List.mem_cons.1 haged with rfl | htail
    · exact le_rfl
    · exact ((List.pairwise_cons.1 hsub).1 k htail).le

/-! ## Ages -/

/-- How many later requests were executed while one at `index` waited. -/
def bypassed (run : List Executed) (index : ℕ) : ℕ := (run.filter fun x => decide (index < x.index)).length

/-- The ages count the bypasses, and what is executed had entered. -/
structure Aging (w : Window) : Prop where
  age : ∀ e ∈ w.pending, e.age = bypassed w.results e.index
  entered : ∀ x ∈ w.results, ∀ p ∈ w.queue, x.index < p.1

theorem Aging.refill (h : Aging w) : Aging (c.refill w) := by
  constructor
  · intro e he
    rcases List.mem_append.1 he with he | he
    · exact h.age e he
    · obtain ⟨p, hp, rfl⟩ := List.mem_map.1 he
      have hnone : (w.results.filter fun x => decide (p.1 < x.index)) = [] := by
        refine List.filter_eq_nil_iff.2 fun x hx hlt => ?_
        exact absurd (of_decide_eq_true hlt) (Nat.lt_asymm (h.entered x hx p (List.mem_of_mem_take hp)))
      show 0 = (w.results.filter fun x => decide (p.1 < x.index)).length
      rw [hnone]
      rfl
  · intro x hx p hp
    exact h.entered x hx p (List.mem_of_mem_drop hp)

theorem Aging.complete (h : Aging w) {e : Pending} (hqueue : ∀ p ∈ w.queue, e.index < p.1) {r : AccessRequest}
    {completion now : ℚ} : Aging (c.complete w e now ⟨e.index, r, completion⟩) := by
  constructor
  · intro k hk
    obtain ⟨hk, hne⟩ := List.mem_filter.1 hk
    obtain ⟨m, hm, rfl⟩ := List.mem_map.1 hk
    show _ = bypassed (⟨e.index, r, completion⟩ :: w.results) _
    by_cases hlt : m.index < e.index
    · simp only [if_pos hlt, bypassed, List.filter_cons, decide_eq_true hlt, if_true, List.length_cons]
      rw [h.age m hm]
      rfl
    · simp only [if_neg hlt, bypassed, List.filter_cons, decide_eq_false hlt, Bool.false_eq_true, if_false]
      exact h.age m hm
  · intro x hx p hp
    rcases List.mem_cons.1 hx with rfl | hx
    · exact hqueue p hp
    · exact h.entered x hx p hp

theorem Scheduling.lt_queue {requests : List AccessRequest} (h : c.Scheduling requests w) {e : Pending} (he : e ∈ w.pending) :
    ∀ p ∈ w.queue, e.index < p.1 := by
  intro p hp
  have hsorted := List.pairwise_append.1 h.sorted
  exact hsorted.2.2 (e.index, e.request) (List.mem_map_of_mem he) p hp

theorem Scheduling.available_sorted {requests : List AccessRequest} (h : c.Scheduling requests w) :
    (c.available core w s).Pairwise fun a b => a.index < b.index := by
  have hpending : w.pending.Pairwise fun a b => a.index < b.index := by
    have hsorted := (List.pairwise_append.1 h.sorted).1
    rw [List.pairwise_map] at hsorted
    exact hsorted
  have hsub : ∀ (pending before : List Pending), ((candidates (c.ready core w s) before pending).map Prod.fst).Sublist pending := by
    intro pending
    induction pending with
    | nil => exact fun _ => List.Sublist.slnil
    | cons e rest ih =>
      intro before
      unfold candidates
      split
      · exact (ih _).cons _
      · exact (ih _).cons_cons _
  have hfilter : (c.available core w s).Sublist ((c.ranked core w s).map Prod.fst) :=
    (List.filter_sublist (l := c.ranked core w s)).map Prod.fst
  exact hpending.sublist (hfilter.trans (hsub _ _))

/-! ## Runs -/

variable (c core)

/-- The window as `schedule_requests` opens it. -/
def opening (requests : List AccessRequest) (s : σ) : Window :=
  ⟨[], places requests, core.acceptance s, fun _ => none, fun _ => none, []⟩

/-- The states in which the loop decides. -/
inductive Reaches (requests : List AccessRequest) : Window → σ → Prop
  | start (s : σ) : Reaches requests (opening core requests s) s
  | step {w w' : Window} {s s' : σ} : Reaches requests w s → ¬(w.pending = [] ∧ w.queue = []) →
      c.scheduleStep core (c.refill w) s = .ok w' s' → Reaches requests w' s'

/-- An error the core raised on some request. -/
def CoreRaises (error : String) : Prop := ∃ r s s', core.submit r s = .error error s'

/-- Every request is executed once, and after those before it that it
contends with for a burst. -/
structure Issued (requests : List AccessRequest) (run : List Executed) : Prop extends Orderly requests run where
  contended : ∀ x ∈ run, ∀ y ∈ run, x.index < y.index → c.Contend x.request y.request → x.completion ≤ y.request.arrival

variable {c core} {requests : List AccessRequest}

theorem Scheduling.opening (s : σ) : c.Scheduling requests (opening core requests s) := by
  refine ⟨sorted_places requests, fun p hp => mem_places hp, ?_, by simp [Controller.opening], by simp [Controller.opening],
    by simp [Controller.opening], by simp [Controller.opening], recorded_nil (RangeTree.blank_absent 0),
    recorded_nil (RangeTree.blank_absent 0)⟩
  exact List.Perm.of_eq (map_fst_places requests)

theorem Scheduling.valid (h : c.Scheduling requests w) (hvalid : ∀ r ∈ requests, validateDramRequest r c.geometry = .ok ()) :
    ∀ e ∈ w.pending, validateDramRequest e.request c.geometry = .ok () := by
  intro e he
  have hin : (e.index, e.request) ∈ w.waiting := List.mem_append_left _ (List.mem_map_of_mem he)
  exact hvalid e.request (List.mem_of_getElem? (h.source _ hin))

theorem refill_pending_ne_nil (h : ¬(w.pending = [] ∧ w.queue = [])) : (c.refill w).pending ≠ [] := by
  intro hnil
  obtain ⟨hpending, htaken⟩ := List.append_eq_nil_iff.1 hnil
  have htake : w.queue.take (c.schedulerWindow - w.pending.length) = [] := List.map_eq_nil_iff.1 htaken
  rw [hpending, List.length_nil, Nat.sub_zero] at htake
  rcases List.take_eq_nil_iff.1 htake with hzero | hqueue
  · exact absurd hzero c.window_pos.ne'
  · exact h ⟨hpending, hqueue⟩

/-- What holds whenever the loop decides. -/
theorem Reaches.keeps (hvalid : ∀ r ∈ requests, validateDramRequest r c.geometry = .ok ()) (h : c.Reaches core requests w s) :
    c.Scheduling requests w ∧ Aging w := by
  induction h with
  | start s => exact ⟨.opening s, by simp [Controller.opening], by simp [Controller.opening]⟩
  | step hreach hmore hstep ih =>
    obtain ⟨hsched, haging⟩ := ih
    have hfit : ∀ r ∈ requests, c.endBurst r ≤ c.capacity := fun r hr => c.endBurst_le (hvalid r hr)
    refine ⟨(Scheduling.step hfit hsched.refill _ _ _ hstep).1, ?_⟩
    obtain ⟨e, he, hcase⟩ := scheduleStep_cases core (refill_pending_ne_nil hmore) (hsched.refill.valid hvalid)
    rcases hcase with ⟨completion, t, -, hok⟩ | ⟨error, t, -, herror⟩
    · obtain ⟨rfl, -⟩ := EStateM.Result.ok.inj (hok.symm.trans hstep)
      have hin := mem_pending_of_available (mem_select c core he)
      exact haging.refill.complete (hsched.refill.lt_queue hin)
    · cases herror.symm.trans hstep

theorem Scheduling.issued (h : c.Scheduling requests w) (hdone : w.waiting = []) : c.Issued requests w.results :=
  ⟨h.orderly hdone, h.ordered⟩

/-- The loop ends with every request executed, or with an error of the core. -/
theorem Scheduling.runs (hvalid : ∀ r ∈ requests, validateDramRequest r c.geometry = .ok ()) {n : ℕ} {w : Window} {s : σ}
    (h : c.Scheduling requests w) (hn : w.waiting.length ≤ n) :
    wp (c.scheduleLoop core n w) (fun run _ => c.Issued requests run) (fun error _ => CoreRaises core error) s := by
  induction n generalizing w s with
  | zero => exact h.issued (List.eq_nil_of_length_eq_zero (Nat.le_zero.1 hn))
  | succ n ih =>
    unfold scheduleLoop
    split
    · next hdone => exact h.issued (by simp [Window.waiting, hdone])
    · next hmore =>
      rw [wp_bind]
      obtain ⟨e, -, hcase⟩ := scheduleStep_cases core (s := s) (refill_pending_ne_nil hmore)
        (h.refill.valid hvalid)
      rcases hcase with ⟨completion, t, -, hok⟩ | ⟨error, t, hraised, herror⟩
      · have hfit : ∀ r ∈ requests, c.endBurst r ≤ c.capacity := fun r hr => c.endBurst_le (hvalid r hr)
        obtain ⟨hnext, hlength⟩ := Scheduling.step hfit h.refill _ _ _ hok
        rw [waiting_refill] at hlength
        rw [wp, hok]
        exact ih hnext (by omega)
      · rw [wp, herror]
        exact ⟨_, _, _, hraised⟩

/-- **The bounded scheduler is complete, in order and fair.** It ends, with
every request executed once and after those before it that it contends with,
unless the core raises; and at every decision of every run, an entry that may
be executed and was passed as often as the window is wide is not passed. -/
theorem bounded_schedule (c : Controller) (core : Core σ) {requests : List AccessRequest}
    (hvalid : ∀ r ∈ requests, validateDramRequest r c.geometry = .ok ()) :
    (∀ s, wp (c.scheduleRequests core requests) (fun run _ => c.Issued requests run) (fun error _ => CoreRaises core error) s) ∧
    ∀ w s w' s', c.Reaches core requests w s → ¬(w.pending = [] ∧ w.queue = []) →
      c.scheduleStep core (c.refill w) s = .ok w' s' → ∃ x, w'.results = x :: w.results ∧
        ∀ k ∈ c.available core (c.refill w) s, c.schedulerWindow ≤ bypassed w.results k.index → x.index ≤ k.index := by
  constructor
  · intro s
    have hopen : (opening core requests s).waiting.length ≤ requests.length := by
      simp [opening, Window.waiting, places]
    exact (Scheduling.opening s).runs hvalid hopen
  · intro w s w' s' hreach hmore hstep
    obtain ⟨hsched, haging⟩ := hreach.keeps hvalid
    obtain ⟨e, he, hcase⟩ := scheduleStep_cases core (s := s) (refill_pending_ne_nil hmore)
      (hsched.refill.valid hvalid)
    rcases hcase with ⟨completion, t, -, hok⟩ | ⟨error, t, -, herror⟩
    · obtain ⟨rfl, -⟩ := EStateM.Result.ok.inj (hok.symm.trans hstep)
      refine ⟨⟨e.index, c.issued core (c.refill w) s e, completion⟩, rfl, fun k hk hpassed => ?_⟩
      refine select_aged he hsched.refill.available_sorted hk ?_
      rw [haging.refill.age k (mem_pending_of_available hk)]
      exact hpassed
    · cases herror.symm.trans hstep

/-! ## What waits for a completion is passed -/

theorem request_eq_iff (r q : AccessRequest) : r.requestId = q.requestId ∧ r.operation = q.operation ∧ r.address = q.address ∧
    r.byteCount = q.byteCount ∧ r.arrival = q.arrival ↔ r = q := by
  cases r
  cases q
  simp

instance : DecidableEq AccessRequest := fun r q => decidable_of_iff _ (request_eq_iff r q)

deriving instance DecidableEq for Executed, EStateM.Result

/-- In the order of execution, no request that has arrived is passed once it
was passed `limit` times. -/
def NeverPassed (limit : ℕ) (requests : List AccessRequest) (run : List Executed) : Prop :=
  ∀ x ∈ run, ∀ before y after, run = before ++ y :: after → x ∈ after → x.index < y.index →
    (∀ r ∈ requests[x.index]?, r.arrival ≤ y.request.arrival) → bypassed before x.index < limit

/-- A core with credits to spare, whose accesses take ten nanoseconds. -/
def tenNs : Core ℚ where
  acceptance s := s
  inflight _ := []
  channelInflight _ _ := []
  openRow _ _ := none
  schedulerDirection _ := none
  schedulerStreak _ := 0
  submit r s := .ok (r.arrival + 10) (max s r.arrival)
  submitManyOrdered _ := throw ""
  executeFrFcfs _ := throw ""

/-- One bank of 16 rows of 64-byte bursts, with a window of two. -/
def oneBank : DramConfig where
  kind := .ddr
  jedecHbm := false
  addressMapping := .bankInterleaved
  scheduler := .rowHitFirst
  queueScope := .device
  perStackBanks := false
  independentStacks := false
  channels := 1
  subchannelsPerChannel := 1
  pseudoChannelsPerChannel := 1
  stackCount := 1
  diesPerStack := 1
  ranksPerChannel := 1
  bankGroupsPerRank := 1
  banksPerGroup := 1
  rowsPerBank := 16
  rowBytes := 64
  burstBytes := 64
  dataLanes := none
  interleaveBytes := none
  capacityBytes := none

theorem oneBank_valid : oneBank.validate = .ok () := rfl

def windowOfTwo : Controller := ⟨oneBank, 2, 16, oneBank_valid, Nat.two_pos, Nat.succ_pos 15⟩

theorem oneBurst_pos : 0 < 64 := Nat.succ_pos 63

/-- A request for one burst at time zero. -/
def burstAt (operation : Operation) (burst : ℕ) : AccessRequest := ⟨"r", operation, 64 * burst, 64, 0, oneBurst_pos⟩

/-- The write of the first burst, and four reads: of the same burst and of
three others. -/
def writeAndReads : List AccessRequest :=
  [burstAt .write 0, burstAt .read 0, burstAt .read 1, burstAt .read 2, burstAt .read 3]

/-- The read of the first burst waits for its write; the other reads, which
arrived with it, all pass it. -/
theorem bounded_schedule_passed : ∃ run s', windowOfTwo.scheduleRequests tenNs writeAndReads 0 = .ok run s' ∧
    ¬NeverPassed 2 writeAndReads run.reverse := by
  refine ⟨[⟨1, (burstAt .read 0).arriving 10, 20⟩, ⟨4, burstAt .read 3, 10⟩, ⟨3, burstAt .read 2, 10⟩,
    ⟨2, burstAt .read 1, 10⟩, ⟨0, burstAt .write 0, 10⟩], 10, by decide +kernel, fun h => ?_⟩
  have hlt : bypassed [⟨0, burstAt .write 0, 10⟩, ⟨2, burstAt .read 1, 10⟩, ⟨3, burstAt .read 2, 10⟩] 1 < 2 :=
    h ⟨1, (burstAt .read 0).arriving 10, 20⟩ (by simp) _ ⟨4, burstAt .read 3, 10⟩ [⟨1, (burstAt .read 0).arriving 10, 20⟩] rfl
      (by simp) (by decide) (by simp [writeAndReads, burstAt])
  exact absurd hlt (by decide)

theorem bounded_schedule_writeAndReads : (∀ r ∈ writeAndReads, validateDramRequest r windowOfTwo.geometry = .ok ()) ∧
    ∀ s, wp (windowOfTwo.scheduleRequests tenNs writeAndReads)
      (fun run _ => windowOfTwo.Issued writeAndReads run) (fun error _ => CoreRaises tenNs error) s :=
  ⟨by decide +kernel, (bounded_schedule windowOfTwo tenNs (by decide +kernel)).1⟩

end Controller

end HeteroSim.Task
