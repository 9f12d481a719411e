/-
The window's invariant: what is executed and what waits make up the requests,
nothing that waits conflicts with an executed request that came after it, and
the ledgers keep the completions. So the schedule is in order where requests
conflict.
-/
import HeteroSim.Task.Requests

namespace HeteroSim.Task

open HeteroSim.Address

variable {σ : Type}

def Window.waiting (w : Window) : List (ℕ × AccessRequest) :=
  w.pending.map (fun e => (e.index, e.request)) ++ w.queue

@[simp] theorem arriving_conflicts (r q : AccessRequest) (a : ℚ) : (r.arriving a).Conflicts q ↔ r.Conflicts q := Iff.rfl

@[simp] theorem conflicts_arriving (r q : AccessRequest) (a : ℚ) : r.Conflicts (q.arriving a) ↔ r.Conflicts q := Iff.rfl

namespace Controller

variable (c : Controller) (core : Core σ)

def bursts (r : AccessRequest) : ℕ × ℕ := (c.firstBurst r, c.endBurst r)

/-- The executed requests and the waiting ones. -/
structure Scheduling (requests : List AccessRequest) (w : Window) : Prop where
  sorted : w.waiting.Pairwise fun a b => a.1 < b.1
  source : ∀ p ∈ w.waiting, requests[p.1]? = some p.2
  all : (w.results.map Executed.index ++ w.waiting.map Prod.fst).Perm (List.range requests.length)
  entries : ∀ e ∈ w.pending, (e.left, e.right) = c.bursts e.request
  same : ∀ x ∈ w.results, ∃ r, requests[x.index]? = some r ∧ x.request = r.arriving x.request.arrival ∧
    r.arrival ≤ x.request.arrival
  ordered : ∀ x ∈ w.results, ∀ y ∈ w.results, x.index < y.index → c.Contend x.request y.request →
    x.completion ≤ y.request.arrival
  free : ∀ y ∈ w.results, ∀ p ∈ w.waiting, p.1 < y.index → ¬c.Contend p.2 y.request
  recorded : Recorded c.capacity c.bursts w.readsAndWrites w.results
  recordedWrites : Recorded c.capacity c.bursts w.writes (w.results.filter Executed.isWrite)

/-! ## Entering and choosing -/

theorem waiting_refill (w : Window) : (c.refill w).waiting = w.waiting := by
  have henter : ∀ l : List (ℕ × AccessRequest), (l.map c.enter).map (fun e => (e.index, e.request)) = l := by
    intro l
    rw [List.map_map]
    exact List.map_id'' (fun _ => rfl) l
  simp only [Window.waiting, refill, List.map_append, henter, List.append_assoc, List.take_append_drop]

theorem Scheduling.refill {requests : List AccessRequest} {w : Window} (h : c.Scheduling requests w) :
    c.Scheduling requests (c.refill w) := by
  have hw := c.waiting_refill w
  refine { h with sorted := hw ▸ h.sorted, source := hw ▸ h.source, all := hw ▸ h.all, free := hw ▸ h.free, entries := ?_ }
  intro e he
  rcases List.mem_append.1 he with he | he
  · exact h.entries e he
  · obtain ⟨p, -, rfl⟩ := List.mem_map.1 he
    rfl

theorem mem_candidates {ready : Pending → ℚ} : ∀ {pending before : List Pending} {entry : Pending × ℚ},
    entry ∈ candidates ready before pending → ∃ pre post, pending = pre ++ entry.1 :: post ∧ entry.2 = ready entry.1 ∧
      blocked (before ++ pre) entry.1 = false
  | [], _, _, h => by cases h
  | e :: rest, before, entry, h => by
    have hrest : entry ∈ candidates ready (before ++ [e]) rest → ∃ pre post, e :: rest = pre ++ entry.1 :: post ∧
        entry.2 = ready entry.1 ∧ blocked (before ++ pre) entry.1 = false := by
      intro hin
      obtain ⟨pre, post, rfl, hready, hfree⟩ := mem_candidates hin
      exact ⟨e :: pre, post, rfl, hready, by simpa using hfree⟩
    unfold candidates at h
    split at h
    · exact hrest h
    · next hfree =>
      rcases List.mem_cons.1 h with rfl | h
      · exact ⟨[], rest, rfl, rfl, by simpa using hfree⟩
      · exact hrest h

theorem mem_byDirection {s : σ} {available : List Pending} {e : Pending} (h : e ∈ c.byDirection core s available) :
    e ∈ available := by
  unfold byDirection at h
  dsimp only at h
  split at h
  · exact List.mem_of_mem_filter h
  · split at h
    · exact List.mem_of_mem_filter h
    · exact h

theorem mem_firstHit {s : σ} {e : Pending} : ∀ {available : List Pending},
    c.firstHit core s available = .ok (some e) → e ∈ available
  | [], h => by cases h
  | k :: rest, h => by
    unfold firstHit at h
    obtain ⟨m, -, h⟩ := bind_ok.1 h
    split at h
    · cases h
      exact List.mem_cons_self
    · exact List.mem_cons_of_mem _ (mem_firstHit h)

/-- The policy picks one of the entries that may be executed. -/
theorem mem_select {s : σ} {available : List Pending} {e : Pending} (h : c.select core s available = .ok (some e)) :
    e ∈ available := by
  unfold select at h
  dsimp only at h
  split at h
  · cases h' : available.filter fun e => decide (c.schedulerWindow ≤ e.age) with
    | nil => rw [h'] at h; cases h
    | cons k rest =>
      rw [h'] at h
      cases h
      exact List.mem_of_mem_filter (h' ▸ List.mem_cons_self)
  · split at h
    · obtain ⟨hit, hhit, h⟩ := bind_ok.1 h
      cases hit with
      | none =>
        have h : available.head? = some e := Except.ok.inj h
        exact List.mem_of_mem_head? h
      | some k =>
        have h : some k = some e := Except.ok.inj h
        exact mem_firstHit c core (h ▸ hhit)
    · have h : (c.byDirection core s available).head? = some e := Except.ok.inj h
      exact mem_byDirection c core (List.mem_of_mem_head? h)

/-! ## Withdrawing -/

theorem map_withdraw {β : Type} (f : Pending → β) (hf : ∀ e n, f { e with age := n } = f e) {e : Pending}
    {pre post : List Pending} (hpre : ∀ k ∈ pre, k.index ≠ e.index) (hpost : ∀ k ∈ post, k.index ≠ e.index) :
    (withdraw e (pre ++ e :: post)).map f = (pre ++ post).map f := by
  have hkeep : ∀ l : List Pending, (∀ k ∈ l, k.index ≠ e.index) → (withdraw e l).map f = l.map f := by
    intro l
    induction l with
    | nil => intro _; rfl
    | cons k l ih =>
      intro hl
      have hk : (if k.index < e.index then { k with age := k.age + 1 } else k).index ≠ e.index := by
        split <;> exact hl k (by simp)
      have hfk : f (if k.index < e.index then { k with age := k.age + 1 } else k) = f k := by
        split
        · exact hf k _
        · rfl
      have ih := ih fun m hm => hl m (by simp [hm])
      unfold withdraw at ih ⊢
      rw [List.map_cons, List.filter_cons_of_pos (by simpa using hk), List.map_cons, List.map_cons, hfk, ih]
  have hsplit : withdraw e (pre ++ e :: post) = withdraw e pre ++ withdraw e post := by
    simp only [withdraw, List.map_append, List.map_cons, List.filter_append, lt_self_iff_false, if_false]
    rw [List.filter_cons_of_neg (by simp)]
  rw [hsplit, List.map_append, hkeep pre hpre, hkeep post hpost, List.map_append]

/-! ## One step -/

variable {c core}

/-- The unblocked entry `e` of the window, with what waits before and after. -/
structure Choice (c : Controller) (w : Window) (e : Pending) (before rest : List (ℕ × AccessRequest)) : Prop where
  waiting : w.waiting = before ++ (e.index, e.request) :: rest
  entry : e ∈ w.pending
  unblocked : ∀ p ∈ before, p.1 < e.index → ¬c.Contend p.2 e.request
  withdrawn : ∀ w' : Window, w'.pending = withdraw e w.pending → w'.queue = w.queue → w'.waiting = before ++ rest

theorem blocked_conflicts {requests : List AccessRequest} {w : Window} (h : c.Scheduling requests w) {e : Pending}
    {pre : List Pending} (hpre : ∀ k ∈ pre, k ∈ w.pending) (he : e ∈ w.pending) (hfree : blocked pre e = false) :
    ∀ k ∈ pre, ¬c.Contend k.request e.request := by
  intro k hk hc
  rw [blocked, List.any_eq_false] at hfree
  refine hfree k hk (decide_eq_true ?_)
  have hplace := Prod.mk.injEq .. ▸ h.entries k (hpre k hk)
  have hplaceE := Prod.mk.injEq .. ▸ h.entries e he
  rw [hplace.1, hplace.2, hplaceE.1, hplaceE.2]
  exact ⟨hc.1, hc.2.1, hc.2.2.symm⟩

theorem Scheduling.choice {requests : List AccessRequest} {w : Window} (h : c.Scheduling requests w) {ready : Pending → ℚ}
    {entry : Pending × ℚ} (hin : entry ∈ candidates ready [] w.pending) :
    entry.2 = ready entry.1 ∧ ∃ before rest, Choice c w entry.1 before rest := by
  obtain ⟨e, t⟩ := entry
  obtain ⟨pre, post, hpending, hready, hfree⟩ := mem_candidates hin
  rw [List.nil_append] at hfree
  simp only at hpending hready hfree ⊢
  have hwaiting : w.waiting = pre.map (fun k => (k.index, k.request)) ++
      (e.index, e.request) :: (post.map (fun k => (k.index, k.request)) ++ w.queue) := by
    simp [Window.waiting, hpending]
  have hsorted := h.sorted
  rw [hwaiting, List.pairwise_append, List.pairwise_cons] at hsorted
  have hpre : ∀ k ∈ pre, k.index ≠ e.index := fun k hk => by
    have := hsorted.2.2 (k.index, k.request) (List.mem_map_of_mem hk) (e.index, e.request) (by simp)
    exact Nat.ne_of_lt this
  have hpost : ∀ k ∈ post, k.index ≠ e.index := fun k hk => by
    have := hsorted.2.1.1 (k.index, k.request) (List.mem_append_left _ (List.mem_map_of_mem hk))
    exact Nat.ne_of_gt this
  refine ⟨hready, _, _, hwaiting, by simp [hpending], fun p hp _ => ?_, fun w' hw' hq' => ?_⟩
  · obtain ⟨k, hk, rfl⟩ := List.mem_map.1 hp
    exact blocked_conflicts h (fun k hk => by simp [hpending, hk]) (by simp [hpending]) hfree k hk
  · rw [Window.waiting, hw', hq', hpending, map_withdraw _ (fun _ _ => rfl) hpre hpost, List.map_append,
      List.append_assoc]

/-- **Executing an unblocked entry after its ledger keeps the invariant.** -/
theorem Scheduling.complete {requests : List AccessRequest} {w : Window} (h : c.Scheduling requests w) {e : Pending}
    {before rest : List (ℕ × AccessRequest)} (he : Choice c w e before rest) (hfit : c.endBurst e.request ≤ c.capacity)
    {arrival completion : ℚ} (ha : e.request.arrival ≤ arrival)
    (hledger : RangeTree.largest 0 e.left e.right c.capacity 1 0 c.capacity (ledger w e) ≤ arrival) (now : ℚ) :
    c.Scheduling requests (c.complete w e now ⟨e.index, e.request.arriving arrival, completion⟩) := by
  have hplace := Prod.mk.injEq .. ▸ h.entries e he.entry
  have hlt := c.firstBurst_lt e.request
  have hsize : 0 < c.capacity := Nat.lt_of_lt_of_le (Nat.zero_lt_of_lt hlt) hfit
  have hwaiting := he.withdrawn (c.complete w e now ⟨e.index, e.request.arriving arrival, completion⟩) rfl rfl
  have hmem : ∀ p ∈ before ++ rest, p ∈ w.waiting := fun p hp => by
    rw [he.waiting]
    rcases List.mem_append.1 hp with hp | hp
    · exact List.mem_append_left _ hp
    · exact List.mem_append_right _ (List.mem_cons_of_mem _ hp)
  have hself : (e.index, e.request) ∈ w.waiting := by simp [he.waiting]
  have hsorted := h.sorted
  rw [he.waiting, List.pairwise_append, List.pairwise_cons] at hsorted
  have hpast : ∀ x ∈ w.results, c.Contend x.request e.request → x.completion ≤ arrival := by
    intro x hx hc
    refine le_trans ?_ hledger
    have hmeet : (c.bursts x.request).1 < e.right ∧ e.left < (c.bursts x.request).2 := by
      rw [hplace.1, hplace.2]
      exact ⟨hc.1, hc.2.1⟩
    have hq : e.left < e.right ∧ e.right ≤ c.capacity := by
      rw [hplace.1, hplace.2]
      exact ⟨hlt, hfit⟩
    unfold ledger
    split
    · exact h.recorded.le_largest hx hq.1 hq.2 hmeet.1 hmeet.2
    · next hread =>
      refine h.recordedWrites.le_largest (List.mem_filter.2 ⟨hx, ?_⟩) hq.1 hq.2 hmeet.1 hmeet.2
      exact decide_eq_true (hc.2.2.resolve_right hread)
  constructor
  · rw [hwaiting]
    refine List.pairwise_append.2 ⟨hsorted.1, hsorted.2.1.2, fun p hp q hq => hsorted.2.2 p hp q (by simp [hq])⟩
  · rw [hwaiting]
    exact fun p hp => h.source p (hmem p hp)
  · refine List.Perm.trans ?_ h.all
    rw [hwaiting, he.waiting]
    simp only [Controller.complete, List.map_append, List.map_cons, List.cons_append]
    rw [← List.append_assoc, ← List.append_assoc]
    exact List.perm_middle.symm
  · intro k hk
    simp only [Controller.complete, withdraw, List.mem_filter, List.mem_map] at hk
    obtain ⟨⟨m, hm, rfl⟩, -⟩ := hk
    split <;> exact h.entries m hm
  · intro x hx
    rcases List.mem_cons.1 hx with rfl | hx
    · exact ⟨e.request, h.source _ hself, rfl, ha⟩
    · exact h.same x hx
  · intro x hx y hy hxy hc
    rcases List.mem_cons.1 hx with rfl | hx
    · rcases List.mem_cons.1 hy with rfl | hy
      · exact absurd hxy (lt_irrefl _)
      · exact absurd hc (h.free y hy _ hself hxy)
    · rcases List.mem_cons.1 hy with rfl | hy
      · exact hpast x hx hc
      · exact h.ordered x hx y hy hxy hc
  · intro y hy p hp hpy
    rw [hwaiting] at hp
    rcases List.mem_cons.1 hy with rfl | hy
    · rcases List.mem_append.1 hp with hp | hp
      · exact he.unblocked p hp hpy
      · exact absurd hpy (Nat.lt_asymm (hsorted.2.1.1 p hp))
    · exact h.free y hy p (hmem p hp) hpy
  · simp only [Controller.complete, hplace.1, hplace.2]
    exact h.recorded.store hsize false ⟨e.index, e.request.arriving arrival, completion⟩ hlt
  · simp only [Controller.complete, hplace.1, hplace.2]
    split
    · next hw =>
      rw [List.filter_cons_of_pos (p := Executed.isWrite) (decide_eq_true hw)]
      exact h.recordedWrites.store hsize false ⟨e.index, e.request.arriving arrival, completion⟩ hlt
    · next hw =>
      have hread : ¬Executed.isWrite ⟨e.index, e.request.arriving arrival, completion⟩ = true := fun hf => hw (of_decide_eq_true hf)
      rw [List.filter_cons_of_neg hread]
      exact h.recordedWrites

/-- A step from a filled window: the invariant is kept, and one request less waits. -/
theorem Scheduling.step {requests : List AccessRequest} (hfit : ∀ r ∈ requests, c.endBurst r ≤ c.capacity) {w : Window}
    (h : c.Scheduling requests w) :
    Returns (c.scheduleStep core w) fun w' => c.Scheduling requests w' ∧ w'.waiting.length + 1 = w.waiting.length := by
  refine (Returns.any get).bind fun s _ => (Returns.any _).bind fun first _ => ?_
  refine (Returns.raise (Q := fun choice => ∀ e ∈ choice, e ∈ ((candidates (c.ready core w s) [] w.pending).filter
    fun entry => decide (entry.2 ≤ max w.now first)).map Prod.fst) fun choice hchoice e he => ?_).bind fun choice hin => ?_
  · subst he
    exact mem_select c core hchoice
  refine (Returns.raise (Q := fun e => e ∈ choice) fun e he => ?_).bind fun e he => ?_
  · cases choice with
    | none => cases he
    | some k => cases he; rfl
  obtain ⟨⟨k, t⟩, hk, rfl⟩ := List.mem_map.1 (hin e he)
  obtain ⟨hcand, hnow⟩ := List.mem_filter.1 hk
  obtain ⟨hready, before, rest, hpick⟩ := h.choice hcand
  have hledger : RangeTree.largest 0 k.left k.right c.capacity 1 0 c.capacity (ledger w k) ≤
      max k.request.arrival (max w.now first) := by
    calc _ ≤ max w.now (RangeTree.largest 0 k.left k.right c.capacity 1 0 c.capacity (ledger w k)) := le_max_right _ _
      _ ≤ c.ready core w s k := c.le_admissionTime core _ _ _
      _ ≤ max w.now first := by simpa [← hready] using hnow
      _ ≤ _ := le_max_right _ _
  have hself : (k.index, k.request) ∈ w.waiting := by simp [hpick.waiting]
  have hk := hfit k.request (List.mem_of_getElem? (h.source _ hself))
  refine (Returns.any _).bind fun completion _ => (Returns.any get).bind fun s' _ => Returns.pure ?_
  refine ⟨h.complete hpick hk (le_max_left _ _) hledger _, ?_⟩
  rw [hpick.withdrawn (c.complete w k _ _) rfl rfl, hpick.waiting]
  simp only [List.length_append, List.length_cons]
  omega

/-! ## The whole schedule -/

theorem Scheduling.orderly {requests : List AccessRequest} {w : Window} (h : c.Scheduling requests w)
    (hdone : w.waiting = []) : Orderly requests w.results where
  once := by simpa [hdone] using h.all
  same := h.same
  ordered := fun x hx y hy hxy hc => h.ordered x hx y hy hxy (c.contend_of_conflicts hc)

theorem Scheduling.loop {requests : List AccessRequest} (hfit : ∀ r ∈ requests, c.endBurst r ≤ c.capacity) :
    ∀ {n : ℕ} {w : Window}, c.Scheduling requests w → w.waiting.length ≤ n →
      Returns (c.scheduleLoop core n w) (Orderly requests)
  | 0, w, h, hn => Returns.pure (h.orderly (List.eq_nil_of_length_eq_zero (Nat.le_zero.1 hn)))
  | n + 1, w, h, hn => by
    unfold scheduleLoop
    refine Returns.ite (fun hdone => Returns.pure (h.orderly ?_)) fun _ => (Scheduling.step hfit h.refill).bind fun w' hw' => ?_
    · simp [Window.waiting, hdone]
    · have := hw'.2
      rw [waiting_refill] at this
      exact Scheduling.loop hfit hw'.1 (by omega)

/-- **The bounded scheduler executes every request once, and conflicting ones
in their order.** -/
theorem scheduleRequests_orderly {requests : List AccessRequest} (hfit : ∀ r ∈ requests, c.endBurst r ≤ c.capacity) :
    Returns (c.scheduleRequests core requests) (Orderly requests) := by
  refine (Returns.any get).bind fun s _ => Scheduling.loop hfit ?_ (by simp [Window.waiting, places])
  refine ⟨sorted_places requests, fun p hp => mem_places hp, ?_, by simp, by simp, by simp, by simp, ?_, ?_⟩
  · have := map_fst_places requests
    simp only [Window.waiting, List.map_nil, List.nil_append]
    exact List.Perm.of_eq this
  · exact recorded_nil (RangeTree.blank_absent 0)
  · exact recorded_nil (RangeTree.blank_absent 0)

end Controller

end HeteroSim.Task
