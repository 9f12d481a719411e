/-
What a manager's log says of each byte of an allocation: whether it is
resident, whether it is dirty, when it was last accessed, and which finished
readers it still waits for. The manager keeps all this as ranges, edited in
place; the log says the same of them.
-/
import HeteroSim.Residency.Calls

namespace HeteroSim.Residency

variable {s t : Manager} {a b : Allocation}

instance (l : List Gap) (x : Int) : Decidable (Holds l x) := inferInstanceAs (Decidable (∃ g ∈ l, _))

/-! ## The log, the latest event first -/

/-- When the byte was last in a range asked for. -/
def lastAccess (id : String) (x : Int) : List Event → Option ℕ
  | [] => none
  | .registered owner ranges _ sequence :: es => if owner = id ∧ Holds ranges x then some sequence else lastAccess id x es
  | .accessed owner _ _ _ ranges _ _ sequence :: es => if owner = id ∧ Holds ranges x then some sequence else lastAccess id x es
  | .evicted .. :: es | .leaseReleased .. :: es | .retired .. :: es | .released .. :: es => lastAccess id x es

def Resident (id : String) (x : Int) : List Event → Prop
  | [] => False
  | .registered owner ranges _ _ :: es => owner = id ∧ Holds ranges x ∨ Resident id x es
  | .accessed owner _ _ _ ranges _ _ _ :: es => owner = id ∧ Holds ranges x ∨ Resident id x es
  | .evicted owner selected _ _ :: es => Resident id x es ∧ ¬(owner = id ∧ Holds selected x)
  | .released owner _ :: es => Resident id x es ∧ owner ≠ id
  | .leaseReleased .. :: es | .retired .. :: es => Resident id x es

def Dirtied (id : String) (x : Int) : List Event → Prop
  | [] => False
  | .registered owner _ dirty _ :: es => owner = id ∧ Holds dirty x ∨ Dirtied id x es
  | .accessed owner op _ _ ranges _ _ _ :: es => owner = id ∧ op = .write ∧ Holds ranges x ∨ Dirtied id x es
  | .evicted owner selected _ _ :: es => Dirtied id x es ∧ ¬(owner = id ∧ Holds selected x)
  | .released owner _ :: es => Dirtied id x es ∧ owner ≠ id
  | .leaseReleased .. :: es | .retired .. :: es => Dirtied id x es

/-- The task released a lease on the byte, which was not evicted since, nor the task retired. -/
def Anchored (id : String) (x : Int) (task : String) : List Event → Prop
  | [] => False
  | .leaseReleased owner consumer ranges :: es => (owner = id ∧ consumer = task ∧ Holds ranges x) ∨ Anchored id x task es
  | .evicted owner selected _ _ :: es => Anchored id x task es ∧ ¬(owner = id ∧ Holds selected x)
  | .retired tasks :: es => Anchored id x task es ∧ task ∉ tasks
  | .released owner _ :: es => Anchored id x task es ∧ owner ≠ id
  | .registered .. :: es | .accessed .. :: es => Anchored id x task es

/-- What makes a task no longer a reader of the byte. -/
def Forgets (id : String) (x : Int) (task : String) : Event → Prop
  | .evicted owner selected _ _ => owner = id ∧ Holds selected x
  | .retired tasks => task ∈ tasks
  | .released owner _ => owner = id
  | _ => False

theorem anchored_cons {id : String} {x : Int} {task : String} {e : Event} {es : List Event} : Anchored id x task (e :: es) ↔
    (∃ ranges, e = .leaseReleased id task ranges ∧ Holds ranges x) ∨ Anchored id x task es ∧ ¬Forgets id x task e := by
  cases e with
  | leaseReleased owner consumer ranges =>
    refine or_congr ⟨fun h => ?_, fun h => ?_⟩ (and_iff_left not_false).symm
    · obtain ⟨rfl, rfl, hx⟩ := h
      exact ⟨ranges, rfl, hx⟩
    · obtain ⟨_, heq, hx⟩ := h
      cases heq
      exact ⟨rfl, rfl, hx⟩
  | evicted | retired | released | registered | accessed => simp [Anchored, Forgets]

theorem anchored_iff {id : String} {x : Int} {task : String} {es : List Event} : Anchored id x task es ↔
    ∃ later ranges earlier, es = later ++ .leaseReleased id task ranges :: earlier ∧ Holds ranges x ∧ ∀ e ∈ later, ¬Forgets id x task e := by
  induction es with
  | nil => simp [Anchored]
  | cons first es ih =>
    rw [anchored_cons, ih]
    constructor
    · rintro (⟨ranges, rfl, hx⟩ | ⟨⟨later, ranges, earlier, rfl, hx, hall⟩, hfirst⟩)
      · exact ⟨[], ranges, es, rfl, hx, fun e he => (by cases he)⟩
      · exact ⟨first :: later, ranges, earlier, rfl, hx, List.forall_mem_cons.2 ⟨hfirst, hall⟩⟩
    · rintro ⟨later, ranges, earlier, heq, hx, hall⟩
      cases later with
      | nil => exact .inl ⟨ranges, (List.cons.inj heq).1, hx⟩
      | cons e later =>
        obtain ⟨rfl, rfl⟩ := List.cons.inj heq
        obtain ⟨hfirst, hall⟩ := List.forall_mem_cons.1 hall
        exact .inr ⟨⟨later, ranges, earlier, rfl, hx, hall⟩, hfirst⟩

/-- Each event is as it should be after those before it. -/
def Logged (P : Event → List Event → Prop) : List Event → Prop
  | [] => True
  | e :: es => P e es ∧ Logged P es

theorem logged_iff {P : Event → List Event → Prop} {es : List Event} :
    Logged P es ↔ ∀ later e earlier, es = later ++ e :: earlier → P e earlier := by
  induction es with
  | nil => simp [Logged]
  | cons first es ih =>
    constructor
    · intro h later e earlier hsplit
      cases later with
      | nil =>
        obtain ⟨rfl, rfl⟩ := List.cons.inj hsplit
        exact h.1
      | cons x later =>
        obtain ⟨-, hrest⟩ := List.cons.inj hsplit
        exact ih.1 h.2 later e earlier hrest
    · intro h
      exact ⟨h [] first es rfl, ih.2 fun later e earlier hsplit => h (first :: later) e earlier (congrArg (first :: ·) hsplit)⟩

/-! ## The manager, byte by byte -/

def Manager.residentOf (s : Manager) (id : String) : List Gap := (s.allocations.get? id).elim [] Allocation.residentRanges

def Manager.dirtyOf (s : Manager) (id : String) : List Gap := (s.allocations.get? id).elim [] Allocation.dirtyRanges

def Manager.stampsOf (s : Manager) (id : String) : List Stamp := (s.allocations.get? id).elim [] Allocation.residentRecencyRanges

/-- The anchors of a byte, by their tasks. -/
def Anchors (l : List Anchor) (x : Int) (task : String) : Prop := ∃ k ∈ l, k.taskId = task ∧ k.range.lo ≤ x ∧ x < k.range.hi

/-- The log says of every byte what the manager's ranges do. -/
structure Told (s : Manager) : Prop where
  resident : ∀ id x, Holds (s.residentOf id) x ↔ Resident id x s.events
  dirtied : ∀ id x, Holds (s.dirtyOf id) x ↔ Dirtied id x s.events
  stamped : ∀ id x n, Stamped (s.stampsOf id) x n ↔ Resident id x s.events ∧ lastAccess id x s.events = some n
  anchored : ∀ id x task, Anchors (s.anchorsOf id) x task ↔ Anchored id x task s.events
  clean : ∀ id a, s.allocations.get? id = some a → a.readOnly = true → a.dirtyRanges = []

/-- What is said of an allocation replaced, and of the others. -/
theorem insert_views {k : String} (h : t.allocations = s.allocations.insert k b) (id : String) :
    t.residentOf id = (if id = k then b.residentRanges else s.residentOf id) ∧
      t.dirtyOf id = (if id = k then b.dirtyRanges else s.dirtyOf id) ∧
      t.stampsOf id = if id = k then b.residentRecencyRanges else s.stampsOf id := by
  unfold Manager.residentOf Manager.dirtyOf Manager.stampsOf
  rw [h, Dict.get?_insert]
  split <;> exact ⟨rfl, rfl, rfl⟩

theorem views_of_get? {k : String} (h : s.allocations.get? k = some a) :
    s.residentOf k = a.residentRanges ∧ s.dirtyOf k = a.dirtyRanges ∧ s.stampsOf k = a.residentRecencyRanges := by
  unfold Manager.residentOf Manager.dirtyOf Manager.stampsOf
  rw [h]
  exact ⟨rfl, rfl, rfl⟩

theorem clean_insert {k : String} (h : ∀ id a, s.allocations.get? id = some a → a.readOnly = true → a.dirtyRanges = [])
    (ht : t.allocations = s.allocations.insert k b) (hb : b.readOnly = true → b.dirtyRanges = []) :
    ∀ id a, t.allocations.get? id = some a → a.readOnly = true → a.dirtyRanges = [] := by
  intro id a ha
  rw [ht, Dict.get?_insert] at ha
  split at ha
  · exact Option.some.inj ha ▸ hb
  · exact h id a ha

/-! ## Anchors -/

theorem anchors_append {l m : List Anchor} {x : Int} {task : String} : Anchors (l ++ m) x task ↔ Anchors l x task ∨ Anchors m x task := by
  unfold Anchors
  simp only [List.mem_append, or_and_right, exists_or]

theorem anchors_singleton {k : Anchor} {x : Int} {task : String} :
    Anchors [k] x task ↔ k.taskId = task ∧ k.range.lo ≤ x ∧ x < k.range.hi := by
  unfold Anchors
  simp only [List.mem_singleton, exists_eq_left]

/-- **Merging a range into the last anchor adds its bytes and no others.** -/
theorem anchors_retain (l : List Anchor) (g : Gap) (consumer : String) (x : Int) (task : String) :
    Anchors (retainConsumerRange l g consumer) x task ↔ Anchors l x task ∨ consumer = task ∧ g.lo ≤ x ∧ x < g.hi := by
  unfold retainConsumerRange
  split
  · next hempty =>
    refine (or_iff_left ?_).symm
    omega
  · next hg =>
    cases hlast : l.getLast? with
    | none =>
      simp only [anchors_append, anchors_singleton]
    | some k =>
      simp only
      split
      · next hmerge =>
        obtain ⟨htask, hlo, hhi⟩ := hmerge
        obtain ⟨init, rfl⟩ := List.getLast?_eq_some_iff.1 hlast
        rw [List.dropLast_concat]
        simp only [anchors_append, anchors_singleton, Gap.lo_mk, Gap.hi_mk, htask, or_assoc, ← and_or_left]
        refine or_congr_right (and_congr_right fun _ => ?_)
        omega
      · simp only [anchors_append, anchors_singleton]

theorem anchors_foldl_retain (consumer : String) (x : Int) (task : String) : ∀ (ranges : List Gap) (l : List Anchor),
    Anchors (ranges.foldl (retainConsumerRange · · consumer) l) x task ↔ Anchors l x task ∨ consumer = task ∧ Holds ranges x
  | [], l => by simp only [List.foldl_nil, holds_nil, and_false, or_false]
  | g :: ranges, l => by
    rw [List.foldl_cons, anchors_foldl_retain consumer x task ranges, anchors_retain, holds_cons, or_assoc, ← and_or_left]

theorem anchors_retained (l : List Anchor) (selected : List Gap) (hp : ∀ k ∈ l, k.range.lo < k.range.hi) (x : Int) (task : String) :
    Anchors (retainedAnchors l selected) x task ↔ Anchors l x task ∧ ¬Holds selected x := by
  have hone : ∀ k ∈ l, ∀ y, Holds (subtractRanges [k.range] selected) y ↔ (k.range.lo ≤ y ∧ y < k.range.hi) ∧ ¬Holds selected y := by
    intro k hk y
    rw [(subtractRanges_spec (.singleton (hp k hk)) selected).2, holds_cons]
    simp only [holds_nil, or_false]
  unfold Anchors retainedAnchors
  simp only [List.mem_flatMap, List.mem_map]
  constructor
  · rintro ⟨_, ⟨k, hk, g, hg, rfl⟩, htask, hx⟩
    have := (hone k hk x).1 ⟨g, hg, hx⟩
    exact ⟨⟨k, hk, htask, this.1⟩, this.2⟩
  · rintro ⟨⟨k, hk, htask, hx⟩, hnot⟩
    obtain ⟨g, hg, hin⟩ := (hone k hk x).2 ⟨hx, hnot⟩
    exact ⟨⟨g, k.taskId⟩, ⟨k, hk, g, hg, rfl⟩, htask, hin⟩

theorem setAnchors_get (s : Manager) (owner : String) (l : List Anchor) (id : String) :
    (s.setAnchors owner l).anchorsOf id = if id = owner then l else s.anchorsOf id := by
  unfold Manager.anchorsOf Manager.setAnchors
  by_cases hl : l ≠ []
  · simp only [if_pos hl, Dict.get?_insert]
    split <;> rfl
  · simp only [if_neg hl, Dict.get?_erase]
    split
    · rw [not_not.1 hl]
      rfl
    · rfl

theorem foldl_setAnchors_get (f : String × List Anchor → List Anchor) (id : String) : ∀ (items : List (String × List Anchor)) (s : Manager),
    (items.map Prod.fst).Nodup →
    (∀ p ∈ items, p.1 = id → (items.foldl (fun s p => s.setAnchors p.1 (f p)) s).anchorsOf id = f p) ∧
      (id ∉ items.map Prod.fst → (items.foldl (fun s p => s.setAnchors p.1 (f p)) s).anchorsOf id = s.anchorsOf id)
  | [], s, _ => ⟨fun p hp => (by cases hp), fun _ => rfl⟩
  | q :: items, s, h => by
    obtain ⟨hq, hitems⟩ := List.nodup_cons.1 h
    obtain ⟨hin, hout⟩ := foldl_setAnchors_get f id items (s.setAnchors q.1 (f q)) hitems
    refine ⟨fun p hp hid => ?_, fun hnot => ?_⟩
    · obtain rfl | hp := List.mem_cons.1 hp
      · refine (hout (hid ▸ hq)).trans ?_
        rw [setAnchors_get, if_pos hid.symm]
      · exact hin p hp hid
    · rw [List.map_cons, List.mem_cons, not_or] at hnot
      refine (hout hnot.2).trans ?_
      rw [setAnchors_get, if_neg hnot.1]

theorem retiring_get (s : Manager) (tasks : List String) (id : String) :
    (s.retiring tasks).anchorsOf id = (s.anchorsOf id).filter fun k => k.taskId ∉ tasks := by
  obtain ⟨hin, hout⟩ := foldl_setAnchors_get (fun p => p.2.filter fun k => k.taskId ∉ tasks) id s.releasedConsumerRanges.items s
    s.releasedConsumerRanges.nodup
  cases hget : s.releasedConsumerRanges.get? id with
  | none =>
    refine (hout (Dict.get?_eq_none.1 hget)).trans ?_
    rw [Manager.anchorsOf, hget]
    rfl
  | some l =>
    refine (hin (id, l) (Dict.get?_eq_some.1 hget) rfl).trans ?_
    rw [Manager.anchorsOf, hget]
    rfl

theorem anchors_filter (l : List Anchor) (tasks : List String) (x : Int) (task : String) :
    Anchors (l.filter fun k => k.taskId ∉ tasks) x task ↔ Anchors l x task ∧ task ∉ tasks := by
  unfold Anchors
  constructor
  · rintro ⟨k, hk, rfl, hx⟩
    obtain ⟨hk, hnot⟩ := List.mem_filter.1 hk
    exact ⟨⟨k, hk, rfl, hx⟩, of_decide_eq_true hnot⟩
  · rintro ⟨⟨k, hk, rfl, hx⟩, hnot⟩
    exact ⟨k, List.mem_filter.2 ⟨hk, decide_eq_true hnot⟩, rfl, hx⟩

/-! ### Whom they name -/

/-- Anchors are of some bytes and some task, and so are the leases they come from. -/
structure Named (s : Manager) : Prop where
  anchors : ∀ id, ∀ k ∈ s.anchorsOf id, k.range.lo < k.range.hi ∧ k.taskId ≠ ""
  leases : ∀ id l, s.leases.get? id = some l → l.consumerTaskId ≠ ""

theorem named_retain {l : List Anchor} {g : Gap} {consumer : String} (h : ∀ k ∈ l, k.range.lo < k.range.hi ∧ k.taskId ≠ "")
    (hc : consumer ≠ "") : ∀ k ∈ retainConsumerRange l g consumer, k.range.lo < k.range.hi ∧ k.taskId ≠ "" := by
  unfold retainConsumerRange
  split
  · exact h
  · next hg =>
    have hnew : ∀ {m : List Anchor} {k : Gap}, (∀ k ∈ m, k.range.lo < k.range.hi ∧ k.taskId ≠ "") → k.lo < k.hi →
        ∀ q ∈ m ++ [⟨k, consumer⟩], q.range.lo < q.range.hi ∧ q.taskId ≠ "" := by
      intro m k hm hk q hq
      obtain hq | hq := List.mem_append.1 hq
      · exact hm q hq
      · rw [List.mem_singleton.1 hq]
        exact ⟨hk, hc⟩
    split
    · exact hnew h (not_le.1 hg)
    · split
      · refine hnew (fun k hk => h k (List.mem_of_mem_dropLast hk)) ?_
        simp only [Gap.lo_mk, Gap.hi_mk]
        omega
      · exact hnew h (not_le.1 hg)

theorem named_foldl {consumer : String} (hc : consumer ≠ "") : ∀ (ranges : List Gap) (l : List Anchor),
    (∀ k ∈ l, k.range.lo < k.range.hi ∧ k.taskId ≠ "") →
    ∀ k ∈ ranges.foldl (retainConsumerRange · · consumer) l, k.range.lo < k.range.hi ∧ k.taskId ≠ ""
  | [], _, h => h
  | _ :: ranges, _, h => named_foldl hc ranges _ (named_retain h hc)

theorem named_retained {l : List Anchor} {selected : List Gap} (h : ∀ k ∈ l, k.range.lo < k.range.hi ∧ k.taskId ≠ "") :
    ∀ k ∈ retainedAnchors l selected, k.range.lo < k.range.hi ∧ k.taskId ≠ "" := by
  intro k hk
  obtain ⟨q, hq, hk⟩ := List.mem_flatMap.1 hk
  obtain ⟨g, hg, rfl⟩ := List.mem_map.1 hk
  exact ⟨(subtractRanges_spec (.singleton (h q hq).1) selected).1.proper g hg, (h q hq).2⟩

theorem Named.change (h : Named s) (hc : Change s t) : Named t := by
  cases hc with
  | evict hev =>
    refine ⟨fun id => ?_, h.leases⟩
    show ∀ k ∈ (s.setAnchors _ _).anchorsOf id, _
    rw [setAnchors_get]
    split
    · exact named_retained (h.anchors _)
    · exact h.anchors id
  | access htouch => exact ⟨h.anchors, h.leases⟩
  | register ho hroom hwrite => exact ⟨h.anchors, h.leases⟩
  | release hrel =>
    refine ⟨fun id => ?_, h.leases⟩
    unfold Manager.anchorsOf Manager.without
    simp only [Dict.get?_erase]
    split
    · exact fun k hk => (by cases hk)
    · exact h.anchors id
  | view ha hlo hhi hg => exact ⟨h.anchors, h.leases⟩
  | unview viewId => exact ⟨h.anchors, h.leases⟩
  | lease ha hsep hends hsub hnew htask =>
    refine ⟨h.anchors, fun id l hl => ?_⟩
    rw [Manager.leased, Dict.get?_insert] at hl
    split at hl
    · exact Option.some.inj hl ▸ htask
    · exact h.leases id l hl
  | unlease hl =>
    refine ⟨fun id => ?_, fun id k hk => ?_⟩
    · unfold Manager.anchorsOf Manager.unleased
      simp only [Dict.get?_insert]
      split
      · exact named_foldl (h.leases _ _ hl) _ _ (h.anchors _)
      · exact h.anchors id
    · rw [Manager.unleased, Dict.get?_erase] at hk
      split at hk
      · cases hk
      · exact h.leases id k hk
  | retire hactive =>
    refine ⟨fun id k hk => ?_, ?_⟩
    · have hk : k ∈ (s.retiring _).anchorsOf id := hk
      rw [retiring_get] at hk
      exact h.anchors id k (List.mem_filter.1 hk).1
    · obtain ⟨anchors, heq⟩ := s.retired_eq _
      rw [heq]
      exact h.leases
  | commit hcommit => exact ⟨h.anchors, h.leases⟩
  | defer depth => exact ⟨h.anchors, h.leases⟩

/-! ## Every change is told -/

theorem Told.replaced (h : Told s) {k : String} (ht : t.allocations = s.allocations.insert k b)
    (hothers : ∀ id, id ≠ k → ∀ x, (Resident id x t.events ↔ Resident id x s.events) ∧ (Dirtied id x t.events ↔ Dirtied id x s.events) ∧
      lastAccess id x t.events = lastAccess id x s.events)
    (hres : ∀ x, Holds b.residentRanges x ↔ Resident k x t.events) (hdirt : ∀ x, Holds b.dirtyRanges x ↔ Dirtied k x t.events)
    (hst : ∀ x n, Stamped b.residentRecencyRanges x n ↔ Resident k x t.events ∧ lastAccess k x t.events = some n)
    (hanchored : ∀ id x task, Anchors (t.anchorsOf id) x task ↔ Anchored id x task t.events)
    (hclean : b.readOnly = true → b.dirtyRanges = []) : Told t := by
  have hviews := insert_views ht
  refine ⟨fun id x => ?_, fun id x => ?_, fun id x n => ?_, hanchored, clean_insert h.clean ht hclean⟩
  · rw [(hviews id).1]
    split
    · next hid => exact hid ▸ hres x
    · next hid => exact (h.resident id x).trans (hothers id hid x).1.symm
  · rw [(hviews id).2.1]
    split
    · next hid => exact hid ▸ hdirt x
    · next hid => exact (h.dirtied id x).trans (hothers id hid x).2.1.symm
  · rw [(hviews id).2.2]
    split
    · next hid => exact hid ▸ hst x n
    · next hid =>
      obtain ⟨hsame, -, hlast⟩ := hothers id hid x
      rw [hsame, hlast]
      exact h.stamped id x n

theorem Told.evict (h : Told s) (hs : s.Sound) (hn : Named s) {selected : List Gap} (hev : Evictable s a selected) :
    Told (s.evicted a selected) := by
  obtain ⟨-, -, hsound⟩ := hs.owners _ a hev.present
  have hleft := (hsound.without hev.separated hev.ends hev.held).2
  obtain ⟨hres, hdirt, hst⟩ := views_of_get? hev.present
  refine h.replaced (b := a.without selected) rfl (fun id hid x => ?_) (fun x => ?_) (fun x => ?_) (fun x n => ?_) (fun id x task => ?_)
    fun hro => ?_
  · have hne : ¬(a.allocationId = id ∧ Holds selected x) := fun hin => hid hin.1.symm
    exact ⟨and_iff_left hne, and_iff_left hne, rfl⟩
  · show _ ↔ Resident a.allocationId x s.events ∧ ¬(_ ∧ Holds selected x)
    rw [hleft.resident, ← hres, h.resident]
    simp only [true_and]
  · show _ ↔ Dirtied a.allocationId x s.events ∧ ¬(_ ∧ Holds selected x)
    rw [hleft.dirtied, ← hdirt, h.dirtied]
    simp only [true_and]
  · show _ ↔ (Resident a.allocationId x s.events ∧ ¬(_ ∧ Holds selected x)) ∧ lastAccess a.allocationId x s.events = some n
    rw [hleft.stamped, ← hst, h.stamped, and_right_comm]
    simp only [true_and]
  · show Anchors ((s.setAnchors _ _).anchorsOf id) x task ↔ Anchored id x task s.events ∧ ¬(a.allocationId = id ∧ Holds selected x)
    rw [setAnchors_get, ← h.anchored]
    split
    · next hid =>
      rw [anchors_retained _ _ fun k hk => (hn.anchors _ k hk).1, hid]
      simp only [true_and]
    · next hid => simp only [Ne.symm hid, false_and, not_false_eq_true, and_true]
  · rw [hleft.same] at hro
    have hnone := h.clean _ a hev.present hro
    by_contra hne
    obtain ⟨g, hg⟩ := List.exists_mem_of_ne_nil _ hne
    have hin := ((hleft.dirtied g.lo).1 ⟨g, hg, le_rfl, ?_⟩).1
    · rw [hnone] at hin
      exact (holds_nil _).1 hin
    · exact (hsound.without hev.separated hev.ends hev.held).1.dirtied.proper g hg

section

variable {op : AccessOperation} {offset stop : Int} {required missing pagedIn : List Gap}

theorem Told.access (h : Told s) (htouch : Touching s b op offset stop required missing pagedIn) :
    Told (s.accessed b op offset stop required missing pagedIn) := by
  obtain ⟨hres, hdirt, hst⟩ := views_of_get? htouch.replaced.present
  have hb := htouch.touched
  refine h.replaced htouch.replaced.allocations (fun id hid x => ?_) (fun x => ?_) (fun x => ?_) (fun x n => ?_) h.anchored fun hro => ?_
  · exact ⟨or_iff_right fun hin => hid hin.1.symm, or_iff_right fun hin => hid hin.1.symm, if_neg fun hin => hid hin.1.symm⟩
  · show _ ↔ b.allocationId = _ ∧ Holds required x ∨ Resident b.allocationId x s.events
    rw [hb.resident, ← hres, h.resident, or_comm]
    simp only [true_and]
  · show _ ↔ b.allocationId = _ ∧ op = .write ∧ Holds required x ∨ Dirtied b.allocationId x s.events
    rw [hb.dirtied, ← hdirt, h.dirtied, or_comm]
    simp only [true_and]
  · show _ ↔ (b.allocationId = _ ∧ Holds required x ∨ Resident b.allocationId x s.events) ∧
      (if b.allocationId = _ ∧ Holds required x then some (s.accessSequence + 1) else lastAccess b.allocationId x s.events) = some n
    rw [hb.stamped, ← hst, h.stamped]
    by_cases hreq : Holds required x
    · simp only [hreq, true_and, not_true, and_false, or_false, true_or, if_true, Option.some.injEq]
    · simp only [hreq, false_and, not_false_eq_true, and_true, false_or, and_false, if_false]
  · have hread : ¬op = .write := fun hop => Bool.false_ne_true ((htouch.writable hop).symm.trans hro)
    show b.dirtiedWith op required = []
    rw [Allocation.dirtiedWith, if_neg hread]
    exact h.clean _ b htouch.replaced.present hro

end

theorem Told.register (h : Told s) {o : Allocation} {resident : Int} {dirty : Bool} (ho : Registrable s o resident)
    (hwrite : dirty = true → o.readOnly = false) : Told (s.entered o dirty (o.initial resident)) := by
  obtain ⟨-, hb⟩ := ho.entrant dirty
  have hgone : s.residentOf o.allocationId = [] ∧ s.dirtyOf o.allocationId = [] := by
    unfold Manager.residentOf Manager.dirtyOf
    rw [ho.unknown]
    exact ⟨rfl, rfl⟩
  have hempty : (s.numbered o).residentRanges = [] ∧ (s.numbered o).residentRecencyRanges = [] := by
    rw [Manager.numbered, ho.empty]
    exact ⟨rfl, rfl⟩
  refine h.replaced (b := s.entrant o dirty (o.initial resident)) rfl (fun id hid x => ?_) (fun x => ?_) (fun x => ?_) (fun x n => ?_)
    h.anchored fun hro => ?_
  · exact ⟨or_iff_right fun hin => hid hin.1.symm, or_iff_right fun hin => hid hin.1.symm, if_neg fun hin => hid hin.1.symm⟩
  · show _ ↔ o.allocationId = _ ∧ Holds (o.initial resident) x ∨ Resident o.allocationId x s.events
    rw [hb.resident, ← h.resident, hgone.1, hempty.1, or_comm]
    simp only [true_and]
  · show _ ↔ o.allocationId = _ ∧ Holds (s.entrant o dirty (o.initial resident)).dirtyRanges x ∨ Dirtied o.allocationId x s.events
    rw [← h.dirtied, hgone.2]
    simp only [holds_nil, true_and, or_false]
  · show _ ↔ (o.allocationId = _ ∧ Holds (o.initial resident) x ∨ Resident o.allocationId x s.events) ∧
      (if o.allocationId = _ ∧ Holds (o.initial resident) x then some (s.accessSequence + 1) else lastAccess o.allocationId x s.events) = some n
    have hstamps : ¬Stamped [] x n := by
      rintro ⟨r, hr, -⟩
      cases hr
    rw [hb.stamped, hempty.2, ← h.resident, hgone.1, holds_nil]
    by_cases hreq : Holds (o.initial resident) x
    · simp only [hreq, true_and, not_true, and_false, or_false, if_true, Option.some.injEq]
    · simp only [hreq, hstamps, false_and, and_false, or_false]
  · have hclean : dirty = false := Bool.eq_false_iff.2 fun hd => Bool.false_ne_true ((hwrite hd).symm.trans hro)
    subst hclean
    show (s.numbered o).dirtyRanges = []
    rw [Manager.numbered, ho.empty]

theorem Told.release (h : Told s) (a : Allocation) : Told (s.without a) := by
  have hget (id : String) : (s.without a).allocations.get? id = if id = a.allocationId then none else s.allocations.get? id :=
    Dict.get?_erase _ _ _
  refine ⟨fun id x => ?_, fun id x => ?_, fun id x n => ?_, fun id x task => ?_, fun id c hc => ?_⟩
  · show Holds ((Manager.without s a).residentOf id) x ↔ Resident id x s.events ∧ a.allocationId ≠ id
    rw [Manager.residentOf, hget, ← h.resident]
    split
    · next hid => simp only [Option.elim_none, holds_nil, hid, ne_eq, not_true, and_false]
    · next hid => exact (and_iff_left (Ne.symm hid)).symm
  · show Holds ((Manager.without s a).dirtyOf id) x ↔ Dirtied id x s.events ∧ a.allocationId ≠ id
    rw [Manager.dirtyOf, hget, ← h.dirtied]
    split
    · next hid => simp only [Option.elim_none, holds_nil, hid, ne_eq, not_true, and_false]
    · next hid => exact (and_iff_left (Ne.symm hid)).symm
  · show Stamped ((Manager.without s a).stampsOf id) x n ↔
      (Resident id x s.events ∧ a.allocationId ≠ id) ∧ lastAccess id x s.events = some n
    rw [Manager.stampsOf, hget, and_right_comm, ← h.stamped]
    split
    · next hid =>
      simp only [Option.elim_none, hid, ne_eq, not_true, and_false, iff_false]
      rintro ⟨r, hr, -⟩
      cases hr
    · next hid => exact (and_iff_left (Ne.symm hid)).symm
  · show Anchors ((Manager.without s a).anchorsOf id) x task ↔ Anchored id x task s.events ∧ a.allocationId ≠ id
    rw [← h.anchored]
    unfold Manager.anchorsOf Manager.without
    simp only [Dict.get?_erase]
    split
    · next hid =>
      simp only [hid, ne_eq, not_true, and_false, iff_false]
      rintro ⟨k, hk, -⟩
      cases hk
    · next hid => exact (and_iff_left (Ne.symm hid)).symm
  · rw [hget] at hc
    split at hc
    · cases hc
    · exact h.clean id c hc

theorem Told.unlease (h : Told s) (l : ResidencyLease) : Told (s.unleased l) := by
  refine ⟨h.resident, h.dirtied, h.stamped, fun id x task => ?_, h.clean⟩
  show _ ↔ (l.ownerId = id ∧ l.consumerTaskId = task ∧ Holds l.residencyRanges x) ∨ Anchored id x task s.events
  rw [← h.anchored, or_comm]
  unfold Manager.unleased
  rw [Manager.anchorsOf, Dict.get?_insert]
  split
  · next hid =>
    rw [hid]
    simp only [true_and]
    exact anchors_foldl_retain _ _ _ _ _
  · next hid =>
    simp only [Ne.symm hid, false_and, or_false]
    exact Iff.rfl

theorem Told.retire (h : Told s) (tasks : List String) : Told (s.retired tasks) := by
  have hanchors (id : String) (x : Int) (task : String) : Anchors ((s.retired tasks).anchorsOf id) x task ↔
      Anchored id x task s.events ∧ task ∉ tasks := by
    show Anchors ((s.retiring tasks).anchorsOf id) x task ↔ _
    rw [retiring_get, anchors_filter, h.anchored]
  obtain ⟨anchors, heq⟩ := s.retired_eq tasks
  rw [heq] at hanchors ⊢
  exact ⟨h.resident, h.dirtied, h.stamped, hanchors, h.clean⟩

theorem Told.commit (h : Told s) {committed : Int} (hc : Committable s a committed) :
    Told (s.holding a.allocationId (a.committing committed)) := by
  obtain ⟨hres, hdirt, hst⟩ := views_of_get? hc.present
  refine h.replaced (b := a.committing committed) rfl (fun id hid x => ⟨Iff.rfl, Iff.rfl, rfl⟩) (fun x => ?_) (fun x => ?_) (fun x n => ?_)
    h.anchored fun hro => h.clean _ a hc.present hro
  · exact hres ▸ h.resident a.allocationId x
  · exact hdirt ▸ h.dirtied a.allocationId x
  · exact hst ▸ h.stamped a.allocationId x n

/-- **Whatever changes, the log keeps up.** -/
theorem Told.change (h : Told s) (hs : s.Sound) (hn : Named s) (hc : Change s t) : Told t := by
  cases hc with
  | evict hev => exact h.evict hs hn hev
  | access htouch => exact h.access htouch
  | register ho _ hwrite => exact h.register ho hwrite
  | release hrel => exact h.release _
  | view _ _ _ _ => exact { h with }
  | unview viewId => exact { h with }
  | lease _ _ _ _ _ _ => exact { h with }
  | unlease hl => exact h.unlease _
  | retire _ => exact h.retire _
  | commit hcommit => exact h.commit hcommit
  | defer depth => exact { h with }

/-! ## What each event records -/

/-- The migrations of an eviction: what was dirty is written back, the rest discarded, for the readers anchored there. -/
structure Evicted (id : String) (selected dirty : List Gap) (ms : List Migration) (earlier : List Event) : Prop where
  separated : Separated selected ∧ Separated dirty
  dirtied : ∀ x, Holds dirty x ↔ Holds selected x ∧ Dirtied id x earlier
  kinds : ms.map (fun m => (m.kind, m.byteCount)) = (if totalLength dirty ≠ 0 then [(.dirtyWriteback, totalLength dirty)] else []) ++
    if totalLength selected - totalLength dirty ≠ 0 then [(.cleanDiscard, totalLength selected - totalLength dirty)] else []
  owner : ∀ m ∈ ms, m.allocationId = id
  consumers : ∀ m ∈ ms, m.consumerTaskIds.Nodup ∧ ∀ task, task ∈ m.consumerTaskIds ↔ ∃ x, Holds selected x ∧ Anchored id x task earlier

def Exact : Event → List Event → Prop
  | .evicted id selected dirty ms, earlier => Evicted id selected dirty ms earlier
  | _, _ => True

theorem nodup_eraseDups : ∀ l : List String, l.eraseDups.Nodup
  | [] => List.nodup_nil
  | a :: l => by
    rw [List.eraseDups_cons]
    refine List.nodup_cons.2 ⟨fun hin => ?_, nodup_eraseDups _⟩
    have := (List.mem_filter.1 (List.mem_eraseDups.1 hin)).2
    simp at this
termination_by l => l.length
decreasing_by exact Nat.lt_succ_of_le (List.length_filter_le _ _)

theorem mem_evictionConsumers {l : List Anchor} (hl : ∀ k ∈ l, k.range.lo < k.range.hi ∧ k.taskId ≠ "") (selected : List Gap) (task : String) :
    task ∈ ((evictionConsumers l selected).filter (· ≠ "")).eraseDups ↔ ∃ x, Holds selected x ∧ Anchors l x task := by
  have hmeets : ∀ k ∈ l, intersectRanges [k.range] selected ≠ [] ↔ ∃ x, Holds selected x ∧ k.range.lo ≤ x ∧ x < k.range.hi := by
    intro k hk
    obtain ⟨hsep, hx⟩ := intersectRanges_spec [k.range] selected
    simp only [holds_cons, holds_nil, or_false] at hx
    constructor
    · intro hne
      obtain ⟨g, hg⟩ := List.exists_mem_of_ne_nil _ hne
      have hin := (hx g.lo).1 ⟨g, hg, le_rfl, hsep.proper g hg⟩
      exact ⟨g.lo, hin.2, hin.1⟩
    · rintro ⟨x, hin, hk⟩ hnil
      have := (hx x).2 ⟨hk, hin⟩
      rw [hnil] at this
      exact (holds_nil x).1 this
  rw [List.mem_eraseDups, List.mem_filter, evictionConsumers, List.mem_eraseDups, List.mem_map]
  constructor
  · rintro ⟨⟨k, hk, rfl⟩, -⟩
    obtain ⟨hk, hne⟩ := List.mem_filter.1 hk
    obtain ⟨x, hx, hin⟩ := (hmeets k hk).1 (of_decide_eq_true hne)
    exact ⟨x, hx, k, hk, rfl, hin⟩
  · rintro ⟨x, hx, k, hk, rfl, hin⟩
    exact ⟨⟨k, List.mem_filter.2 ⟨hk, decide_eq_true ((hmeets k hk).2 ⟨x, hx, hin⟩)⟩, rfl⟩, decide_eq_true (hl k hk).2⟩

theorem mem_counted {kind : MigrationKind} {n : Int} {source destination : Option String} {tasks : List String} {m : Migration}
    (h : m ∈ s.counted a kind n source destination tasks) : m = a.migration (s.migrationSequence + 1) kind n source destination tasks := by
  unfold Manager.counted at h
  split at h
  · exact List.mem_singleton.1 h
  · cases h

theorem map_counted (kind : MigrationKind) (n : Int) (source destination : Option String) (tasks : List String) :
    (s.counted a kind n source destination tasks).map (fun m => (m.kind, m.byteCount)) = if n ≠ 0 then [(kind, n)] else [] := by
  unfold Manager.counted
  split <;> rfl

theorem Told.evicted (h : Told s) (hn : Named s) {selected : List Gap} (hev : Evictable s a selected) :
    Evicted a.allocationId selected (intersectRanges selected a.dirtyRanges) (s.evictionMigrations a selected) s.events := by
  obtain ⟨-, hdirt, -⟩ := views_of_get? hev.present
  obtain ⟨hsep, hx⟩ := intersectRanges_spec selected a.dirtyRanges
  have hmine : ∀ m ∈ s.evictionMigrations a selected, m.allocationId = a.allocationId ∧
      m.consumerTaskIds = ((evictionConsumers (s.anchorsOf a.allocationId) selected).filter (· ≠ "")).eraseDups := by
    intro m hm
    obtain hm | hm := List.mem_append.1 hm
    · rw [mem_counted hm]
      exact ⟨rfl, rfl⟩
    · rw [mem_counted hm]
      exact ⟨rfl, rfl⟩
  refine ⟨⟨hev.separated, hsep⟩, fun x => ?_, ?_, fun m hm => (hmine m hm).1, fun m hm => ⟨?_, fun task => ?_⟩⟩
  · rw [hx, ← h.dirtied, hdirt]
  · unfold Manager.evictionMigrations
    rw [List.map_append, map_counted, map_counted]
  · rw [(hmine m hm).2]
    exact nodup_eraseDups _
  · rw [(hmine m hm).2, mem_evictionConsumers (hn.anchors _)]
    simp only [h.anchored]

/-! ## The counters -/

/-- A sum over the log. -/
def summed (f : Event → Int) (es : List Event) : Int := (es.map f).sum

def registeredBytes : Event → Int
  | .registered _ ranges _ _ => totalLength ranges
  | _ => 0

/-- Bytes an access made resident without reading them back. -/
def allocatedBytes : Event → Int
  | .accessed _ _ _ _ _ missing pagedIn _ => totalLength missing - totalLength pagedIn
  | _ => 0

def pagedInBytes : Event → Int
  | .accessed _ _ _ _ _ _ pagedIn _ => totalLength pagedIn
  | _ => 0

def discardedBytes : Event → Int
  | .evicted _ selected dirty _ => totalLength selected - totalLength dirty
  | _ => 0

def writtenBackBytes : Event → Int
  | .evicted _ _ dirty _ => totalLength dirty
  | _ => 0

def releasedBytes : Event → Int
  | .released _ bytes => bytes
  | _ => 0

/-- A migration counted. -/
def MigrationTotals.plus (t : MigrationTotals) (kind : MigrationKind) (n : Int) : MigrationTotals where
  pageInBytes := t.pageInBytes + if kind = .pageIn then n else 0
  pageOutBytes := t.pageOutBytes + if kind = .pageIn then 0 else n
  cleanDiscardBytes := t.cleanDiscardBytes + if kind = .cleanDiscard then n else 0
  dirtyWritebackBytes := t.dirtyWritebackBytes + if kind = .dirtyWriteback then n else 0

theorem foldl_counted (kind : MigrationKind) (n : Int) (source destination : Option String) (tasks : List String) (totals : MigrationTotals) :
    (s.counted a kind n source destination tasks).foldl MigrationTotals.add totals = totals.plus kind n := by
  unfold Manager.counted
  split
  · rfl
  · next hzero =>
    rw [not_not.1 hzero]
    unfold MigrationTotals.plus
    simp only [ite_self, Int.add_zero]
    rfl

theorem foldl_evictionMigrations (selected : List Gap) (totals : MigrationTotals) :
    (s.evictionMigrations a selected).foldl MigrationTotals.add totals =
      (totals.plus .dirtyWriteback (totalLength (intersectRanges selected a.dirtyRanges))).plus .cleanDiscard
        (totalLength selected - totalLength (intersectRanges selected a.dirtyRanges)) := by
  unfold Manager.evictionMigrations
  rw [List.foldl_append, foldl_counted, foldl_counted]

/-- Migrations are numbered from the manager's counter on. -/
def Consecutive (s : Manager) (ms : List Migration) : Prop := ms.map Migration.sequence = List.range' (s.migrationSequence + 1) ms.length

theorem consecutive_counted (s : Manager) (a : Allocation) (kind : MigrationKind) (n : Int) (source destination : Option String)
    (tasks : List String) : Consecutive s (s.counted a kind n source destination tasks) := by
  unfold Manager.counted Consecutive
  split <;> rfl

theorem Consecutive.append {ms ns : List Migration} (h : Consecutive s ms) (h' : Consecutive (s.recorded ms) ns) : Consecutive s (ms ++ ns) := by
  unfold Consecutive at *
  rw [List.map_append, h, h', List.length_append]
  show _ ++ List.range' (s.migrationSequence + ms.length + 1) _ = _
  rw [show s.migrationSequence + ms.length + 1 = s.migrationSequence + 1 + ms.length by omega, List.range'_append_1]

theorem consecutive_evictionMigrations (s : Manager) (a : Allocation) (selected : List Gap) : Consecutive s (s.evictionMigrations a selected) :=
  (consecutive_counted s a _ _ _ _ _).append (consecutive_counted _ a _ _ _ _ _)

/-- The counters agree with the log and with the migrations recorded. -/
structure Balanced (s : Manager) : Prop where
  pool : s.pool.residentBytes = summed registeredBytes s.events + summed pagedInBytes s.events + summed allocatedBytes s.events -
    summed discardedBytes s.events - summed writtenBackBytes s.events - summed releasedBytes s.events
  pageIn : s.migrationTotals.pageInBytes = summed pagedInBytes s.events
  clean : s.migrationTotals.cleanDiscardBytes = summed discardedBytes s.events
  dirty : s.migrationTotals.dirtyWritebackBytes = summed writtenBackBytes s.events
  pageOut : s.migrationTotals.pageOutBytes = s.migrationTotals.cleanDiscardBytes + s.migrationTotals.dirtyWritebackBytes
  totals : s.migrationTotals = s.migrations.foldl MigrationTotals.add ⟨0, 0, 0, 0⟩
  counted : s.migrationSequence = s.migrations.length
  numbered : s.migrations.map Migration.sequence = List.range' 1 s.migrations.length

theorem summed_cons (f : Event → Int) (e : Event) (es : List Event) : summed f (e :: es) = f e + summed f es := rfl

theorem MigrationTotals.plus_zero (totals : MigrationTotals) (kind : MigrationKind) : totals.plus kind 0 = totals := by
  unfold MigrationTotals.plus
  simp only [ite_self, Int.add_zero]

/-- One more event, with the migrations it records. -/
theorem Balanced.tell (h : Balanced s) {e : Event} {ms : List Migration} (he : t.events = e :: s.events)
    (hpool : t.pool.residentBytes = s.pool.residentBytes + registeredBytes e + pagedInBytes e + allocatedBytes e - discardedBytes e -
      writtenBackBytes e - releasedBytes e)
    (hmigrations : t.migrations = s.migrations ++ ms) (hsequence : t.migrationSequence = s.migrationSequence + ms.length)
    (htotals : t.migrationTotals = ms.foldl MigrationTotals.add s.migrationTotals) (hms : Consecutive s ms)
    (hplus : t.migrationTotals = ((s.migrationTotals.plus .pageIn (pagedInBytes e)).plus .dirtyWriteback (writtenBackBytes e)).plus
      .cleanDiscard (discardedBytes e)) : Balanced t := by
  have hold := h.pool
  have hpageIn := h.pageIn
  have hclean := h.clean
  have hdirty := h.dirty
  have hpageOut := h.pageOut
  refine ⟨?_, ?_, ?_, ?_, ?_, ?_, ?_, ?_⟩
  · rw [hpool, he]
    simp only [summed_cons]
    omega
  · rw [hplus, he, summed_cons, ← hpageIn]
    simp only [MigrationTotals.plus, reduceCtorEq, if_true, if_false]
    omega
  · rw [hplus, he, summed_cons, ← hclean]
    simp only [MigrationTotals.plus, reduceCtorEq, if_true, if_false]
    omega
  · rw [hplus, he, summed_cons, ← hdirty]
    simp only [MigrationTotals.plus, reduceCtorEq, if_true, if_false]
    omega
  · rw [hplus]
    simp only [MigrationTotals.plus, reduceCtorEq, if_true, if_false]
    omega
  · rw [htotals, hmigrations, List.foldl_append, ← h.totals]
  · rw [hsequence, hmigrations, List.length_append, h.counted]
  · unfold Consecutive at hms
    rw [hmigrations, List.map_append, hms, h.numbered, h.counted, List.length_append, Nat.add_comm s.migrations.length 1,
      List.range'_append_1]

/-- One more event, of nothing that migrates. -/
theorem Balanced.quiet (h : Balanced s) {e : Event} (he : t.events = e :: s.events)
    (hpool : t.pool.residentBytes = s.pool.residentBytes + registeredBytes e - releasedBytes e)
    (hm : (t.migrations, t.migrationSequence, t.migrationTotals) = (s.migrations, s.migrationSequence, s.migrationTotals))
    (hzero : pagedInBytes e = 0 ∧ allocatedBytes e = 0 ∧ discardedBytes e = 0 ∧ writtenBackBytes e = 0) : Balanced t := by
  obtain ⟨hin, hallocated, hdiscarded, hwritten⟩ := hzero
  obtain ⟨hmigrations, hrest⟩ := Prod.mk.inj hm
  obtain ⟨hsequence, htotals⟩ := Prod.mk.inj hrest
  refine h.tell he (by omega) (hmigrations.trans (List.append_nil _).symm) hsequence htotals rfl ?_
  rw [hin, hdiscarded, hwritten, MigrationTotals.plus_zero, MigrationTotals.plus_zero, MigrationTotals.plus_zero, htotals]

theorem Balanced.change (h : Balanced s) (hc : Change s t) : Balanced t := by
  cases hc with
  | @evict a selected _ =>
    refine h.tell (e := .evicted a.allocationId selected (intersectRanges selected a.dirtyRanges) (s.evictionMigrations a selected)) rfl ?_
      rfl rfl rfl (consecutive_evictionMigrations s a selected) ((foldl_evictionMigrations selected _).trans ?_)
    · show s.pool.residentBytes + -totalLength selected = _
      simp only [registeredBytes, pagedInBytes, allocatedBytes, discardedBytes, writtenBackBytes, releasedBytes]
      omega
    · simp only [pagedInBytes, discardedBytes, writtenBackBytes, MigrationTotals.plus_zero]
      rfl
  | @access b op offset stop required missing pagedIn _ =>
    refine h.tell (e := .accessed b.allocationId op offset stop required missing pagedIn (s.accessSequence + 1)) rfl
      (((s.pool.adjusted_if (n := totalLength missing) fun h => h).1).trans ?_) rfl rfl rfl (consecutive_counted s b _ _ _ _ _)
      ((foldl_counted _ _ _ _ _ _).trans ?_)
    · simp only [registeredBytes, pagedInBytes, allocatedBytes, discardedBytes, writtenBackBytes, releasedBytes]
      omega
    · simp only [pagedInBytes, discardedBytes, writtenBackBytes, MigrationTotals.plus_zero]
      rfl
  | @register o resident dirty _ _ _ =>
    refine h.quiet (e := .registered _ _ _ _) rfl (((s.pool.adjusted_if (n := totalLength (o.initial resident)) fun h => h).1).trans ?_) rfl
      ⟨rfl, rfl, rfl, rfl⟩
    exact (Int.sub_zero _).symm
  | @release a _ =>
    refine h.quiet (e := .released _ _) rfl ((s.pool.adjusted_if fun h : a.residentBytes = 0 => show -a.residentBytes = 0 by omega).1.trans ?_)
      rfl ⟨rfl, rfl, rfl, rfl⟩
    show _ = s.pool.residentBytes + 0 - a.residentBytes
    omega
  | view _ _ _ _ => exact { h with }
  | unview viewId => exact { h with }
  | lease _ _ _ _ _ _ => exact { h with }
  | unlease _ => exact h.quiet rfl (by simp [registeredBytes, releasedBytes, Manager.unleased]) rfl ⟨rfl, rfl, rfl, rfl⟩
  | @retire tasks _ =>
    obtain ⟨anchors, heq⟩ := s.retired_eq tasks
    rw [heq]
    exact h.quiet rfl (by simp [registeredBytes, releasedBytes]) rfl ⟨rfl, rfl, rfl, rfl⟩
  | commit _ => exact { h with }
  | defer depth => exact { h with }

/-! ## A manager in use -/

/-- The migrations an event records. -/
def Event.evictions : Event → List Migration
  | .evicted _ _ _ ms => ms
  | _ => []

/-- The log, the counters and the ranges of a manager agree. -/
structure Recorded (s : Manager) : Prop where
  named : Named s
  told : Told s
  exact_events : Logged Exact s.events
  balanced : Balanced s
  outs : (s.migrations.filter fun m => m.kind ≠ .pageIn) = s.events.reverse.flatMap Event.evictions

theorem Manager.new_eq {pool : PhysicalPool} (h : Manager.new pool = .ok s) :
    pool.residentBytes = 0 ∧ s = ⟨pool, .empty, .empty, 0, 0, 0, [], ⟨0, 0, 0, 0⟩, .empty, .empty, 0, []⟩ := by
  unfold Manager.new at h
  split at h
  · cases h
  · next hzero =>
    cases h
    exact ⟨not_not.1 hzero, rfl⟩

theorem Recorded.new {pool : PhysicalPool} (h : Manager.new pool = .ok s) : Recorded s := by
  obtain ⟨hzero, rfl⟩ := Manager.new_eq h
  refine ⟨⟨fun id k hk => (by cases hk), fun id l hl => (by cases hl)⟩, ⟨fun id x => holds_nil x, fun id x => holds_nil x,
    fun id x n => ?_, fun id x task => ?_, fun id a ha => (by cases ha)⟩, trivial, ⟨hzero, rfl, rfl, rfl, rfl, rfl, rfl, rfl⟩, rfl⟩
  · refine ⟨fun hst => ?_, fun hres => hres.1.elim⟩
    obtain ⟨r, hr, -⟩ := hst
    cases hr
  · refine ⟨fun hk => ?_, fun h => h.elim⟩
    obtain ⟨k, hk, -⟩ := hk
    cases hk

theorem evictionMigrations_out (s : Manager) (a : Allocation) (selected : List Gap) : ∀ m ∈ s.evictionMigrations a selected, m.kind ≠ .pageIn := by
  intro m hm
  obtain hm | hm := List.mem_append.1 hm
  · rw [mem_counted hm]
    exact fun h => (by cases h)
  · rw [mem_counted hm]
    exact fun h => (by cases h)

theorem Recorded.change (h : Recorded s) (hs : s.Sound) (hc : Change s t) : Recorded t := by
  have hquiet {e : Event} (he : e.evictions = []) :
      (s.migrations.filter fun m => m.kind ≠ .pageIn) = (e :: s.events).reverse.flatMap Event.evictions := by
    rw [List.reverse_cons, List.flatMap_append, List.flatMap_singleton, he, List.append_nil]
    exact h.outs
  have hlogged : Logged Exact t.events ∧ (t.migrations.filter fun m => m.kind ≠ .pageIn) = t.events.reverse.flatMap Event.evictions := by
    cases hc with
    | @evict a selected hev =>
      refine ⟨⟨h.told.evicted h.named hev, h.exact_events⟩, ?_⟩
      have hall : (s.evictionMigrations a selected).filter (fun m => m.kind ≠ .pageIn) = s.evictionMigrations a selected :=
        List.filter_eq_self.2 fun m hm => decide_eq_true (evictionMigrations_out s a selected m hm)
      show (s.migrations ++ s.evictionMigrations a selected).filter _ = (.evicted _ _ _ (s.evictionMigrations a selected) :: s.events).reverse.flatMap _
      rw [List.filter_append, hall, h.outs, List.reverse_cons, List.flatMap_append, List.flatMap_singleton]
      rfl
    | @access b op offset stop required missing pagedIn htouch =>
      refine ⟨⟨trivial, h.exact_events⟩, Eq.trans ?_ (hquiet rfl)⟩
      show (s.migrations ++ s.counted b .pageIn (totalLength pagedIn) b.backing s.pool.componentId []).filter _ = _
      have hin : (s.counted b .pageIn (totalLength pagedIn) b.backing s.pool.componentId []).filter (fun m => m.kind ≠ .pageIn) = [] := by
        refine List.filter_eq_nil_iff.2 fun m hm => ?_
        rw [mem_counted hm]
        simp [Allocation.migration]
      rw [List.filter_append, hin, List.append_nil]
    | register _ _ _ => exact ⟨⟨trivial, h.exact_events⟩, hquiet rfl⟩
    | release _ => exact ⟨⟨trivial, h.exact_events⟩, hquiet rfl⟩
    | view _ _ _ _ => exact ⟨h.exact_events, h.outs⟩
    | unview viewId => exact ⟨h.exact_events, h.outs⟩
    | lease _ _ _ _ _ _ => exact ⟨h.exact_events, h.outs⟩
    | unlease _ => exact ⟨⟨trivial, h.exact_events⟩, hquiet rfl⟩
    | @retire tasks _ =>
      obtain ⟨anchors, heq⟩ := s.retired_eq tasks
      rw [heq]
      exact ⟨⟨trivial, h.exact_events⟩, hquiet rfl⟩
    | commit _ => exact ⟨h.exact_events, h.outs⟩
    | defer depth => exact ⟨h.exact_events, h.outs⟩
  exact ⟨h.named.change hc, h.told.change hs h.named hc, hlogged.1, h.balanced.change hc, hlogged.2⟩

theorem Recorded.changes (h : Recorded s) (hs : s.Sound) (hc : Changes s t) : Recorded t := by
  induction hc with
  | refl => exact h
  | tail hbefore hchange ih => exact ih.change (Changes.sound hbefore hs) hchange

/-- **However a manager has been used, its log, its counters and its ranges agree.** -/
theorem Used.recorded (h : Used s) : Recorded s :=
  h.keeps (fun _ _ hnew => .new hnew) fun _ _ hs hr hc => hr.change hs hc

end HeteroSim.Residency
