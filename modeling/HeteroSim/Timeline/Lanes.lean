/-
When a resource is available, and where a reservation made then starts.
-/
import HeteroSim.Timeline.Edits
import HeteroSim.Timeline.State

namespace HeteroSim.Timeline

variable {rid : String} {tl : ResourceTimeline} {earliest duration : ℚ} {finite : ℚ → Bool}

/-- The least of the resource's lanes. -/
def laneReady (rid : String) (tl : ResourceTimeline) : ℚ :=
  (lanesOf rid tl).min?.getD (((tl.values .readyNs).get? rid).getD 0)

/-- `available_ns` -/
def availableNs (tl : ResourceTimeline) (resourceId : String) : Except String ℚ := do
  let rid ← canonicalResourceId tl resourceId
  pure (laneReady rid tl)

/-- The best lane starts first. -/
theorem bestLane_spec (start clock : ℕ → ℚ) : ∀ n, bestLane start clock n ≤ n ∧ ∀ i ≤ n, start (bestLane start clock n) ≤ start i := by
  intro n
  induction n with
  | zero =>
    refine ⟨le_rfl, fun i hi => ?_⟩
    rw [Nat.le_zero.1 hi]
    exact le_rfl
  | succ n ih =>
    obtain ⟨hle, hbest⟩ := ih
    simp only [bestLane]
    split
    · rename_i hless
      have hsmall : start (n + 1) ≤ start (bestLane start clock n) := by
        rcases hless with hlt | heq
        · exact hlt.le
        · exact heq.1.le
      refine ⟨le_rfl, fun i hi => ?_⟩
      rcases Nat.le_succ_iff.1 hi with hi | rfl
      · exact hsmall.trans (hbest i hi)
      · exact le_rfl
    · rename_i hless
      refine ⟨hle.trans (Nat.le_succ n), fun i hi => ?_⟩
      rcases Nat.le_succ_iff.1 hi with hi | rfl
      · exact hbest i hi
      · exact not_lt.1 fun hlt => hless (.inl hlt)

theorem length_histories (rid : String) (lanes : List ℚ) (tl : ResourceTimeline) (last : Option String) :
    ((ownHistories rid lanes tl).getD (List.replicate lanes.length last)).length = lanes.length := by
  cases hown : ownHistories rid lanes tl with
  | none => exact List.length_replicate
  | some histories =>
    have hin := (Option.filter_eq_some_iff.1 hown).2
    exact (of_decide_eq_true hin).2

end HeteroSim.Timeline

/-!
What a reservation leaves of the calendar: its lane has a new clock and, where
it was given one, a new direction, and its resource is busy for longer. The
other lanes and the other resources stand as they stood.
-/

namespace HeteroSim.Timeline

/-! ## What reservations read -/

/-- The directions the lanes last moved in. -/
def historiesOf (rid : String) (tl : ResourceTimeline) : List (Option String) :=
  (ownHistories rid (lanesOf rid tl) tl).getD (List.replicate (lanesOf rid tl).length ((tl.values .directions).get? rid))

def busyOf (rid : String) (tl : ResourceTimeline) : ℚ := ((tl.values .busyNs).get? rid).getD 0

/-- The resource stands in the calendar as it stood. -/
structure Stands (rid : String) (tl tl' : ResourceTimeline) : Prop where
  lanes : lanesOf rid tl' = lanesOf rid tl
  histories : historiesOf rid tl' = historiesOf rid tl
  busy : busyOf rid tl' = busyOf rid tl

theorem Stands.refl (rid : String) (tl : ResourceTimeline) : Stands rid tl tl := ⟨rfl, rfl, rfl⟩

theorem Stands.trans {rid : String} {tl tl' tl'' : ResourceTimeline} (h : Stands rid tl tl') (h' : Stands rid tl' tl'') :
    Stands rid tl tl'' :=
  ⟨h'.lanes.trans h.lanes, h'.histories.trans h.histories, h'.busy.trans h.busy⟩

theorem stands_of {rid : String} {tl tl' : ResourceTimeline}
    (hlanes : tl'.list? .laneAvailable rid = tl.list? .laneAvailable rid)
    (hdirections : tl'.list? .laneDirections rid = tl.list? .laneDirections rid)
    (hvalues : ∀ n, n ≠ .bytesMoved → (tl'.values n).get? rid = (tl.values n).get? rid) : Stands rid tl tl' := by
  have heq : lanesOf rid tl' = lanesOf rid tl := by rw [lanesOf, lanesOf, hlanes, hvalues .readyNs (by decide)]
  refine ⟨heq, ?_, ?_⟩
  · rw [historiesOf, historiesOf, ownHistories, ownHistories, heq, hdirections, hvalues .directions (by decide)]
  · rw [busyOf, busyOf, hvalues .busyNs (by decide)]

/-! ## Lists of their own -/

/-- Every resource has list objects of its own. -/
structure Separate (tl : ResourceTimeline) : Prop where
  allocated : Allocated tl
  own : ∀ n rid k l, (tl.map n).get? rid = some l → (tl.map n).get? k = some l → rid = k

variable {rid : String} {tl tl' : ResourceTimeline}

theorem Separate.edits (h : Separate tl) (he : Edits (· = rid) tl tl') : Separate tl' where
  allocated := h.allocated.edits he
  own n i k l hi hk := by
    -- a list both have is either old, or it is new and `rid` alone has it
    have hold : ∀ j, (tl'.map n).get? j = some l → j ≠ rid → (tl.map n).get? j = some l := fun j hj hne => by
      rwa [he.entries n j hne] at hj
    have hnew : ∀ j, (tl'.map n).get? j = some l → j = rid → (tl.map n).get? j = some l ∨ tl.fresh ≤ l := fun j hj _ =>
      (he.owned n j l hj).imp_right And.left
    have hless : ∀ j, (tl.map n).get? j = some l → l < tl.fresh := fun j hj => h.allocated.refs n _ j l hj
    by_cases hir : i = rid
    · by_cases hkr : k = rid
      · rw [hir, hkr]
      · have hkl := hold k hk hkr
        rcases hnew i hi hir with hil | hge
        · exact h.own n i k l hil hkl
        · exact absurd (hless k hkl) (Nat.not_lt.2 hge)
    · have hil := hold i hi hir
      by_cases hkr : k = rid
      · rcases hnew k hk hkr with hkl | hge
        · exact h.own n i k l hil hkl
        · exact absurd (hless i hil) (Nat.not_lt.2 hge)
      · exact h.own n i k l hil (hold k hk hkr)

/-- An edit of one resource lets the others stand. -/
theorem Separate.stands (h : Separate tl) (he : Edits (· = rid) tl tl') {k : String} (hk : k ≠ rid) : Stands k tl tl' := by
  have hlist : ∀ n, tl'.list? n k = tl.list? n k := by
    intro n
    rw [ResourceTimeline.list?, ResourceTimeline.list?, he.entries n k hk]
    cases hl : (tl.map n).get? k with
    | none => rfl
    | some l =>
      have hkept := he.lists n l (h.allocated.refs n _ k l hl) fun j hj hjl => hk ((h.own n k j l hl hjl).trans hj)
      rw [Option.map_some, Option.map_some, hkept]
  exact stands_of (hlist _) (hlist _) fun n _ => he.values n k hk

theorem stands_remember (k : String) : Stands k tl (rememberResource rid tl) := ⟨rfl, rfl, rfl⟩

theorem Separate.remember (h : Separate tl) : Separate (rememberResource rid tl) :=
  ⟨⟨h.allocated.roots, h.allocated.touched, h.allocated.refs, h.allocated.blank⟩, h.own⟩

/-! ## Lists that are set -/

section

variable (rid : String) (tl : ResourceTimeline)

theorem list?_newList (n : ListMap) (items : List (Item n)) : (newList n rid items tl).list? n rid = some items := by
  rw [ResourceTimeline.list?, newList, map_putList, if_pos rfl, Function.update_self, Option.map_some]
  simp only [putList, fill, Function.update_self]

theorem list?_setList (n : ListMap) (items : List (Item n)) : (setList n rid items tl).list? n rid = some items := by
  unfold setList
  split
  · next l hl =>
    have hmap : ((fill n l items tl).map n).get? rid = some l := hl
    rw [ResourceTimeline.list?, hmap, Option.map_some]
    simp only [fill, Function.update_self]
  · exact list?_newList rid tl n items

theorem list?_newList_of_ne {n m : ListMap} (h : m ≠ n) (items : List (Item n)) (k : String) :
    (newList n rid items tl).list? m k = tl.list? m k := by
  rw [ResourceTimeline.list?, newList, map_putList, if_neg h, ResourceTimeline.list?]
  simp only [putList, fill, Function.update_of_ne h]
  rfl

theorem list?_setList_of_ne {n m : ListMap} (h : m ≠ n) (items : List (Item n)) (k : String) :
    (setList n rid items tl).list? m k = tl.list? m k := by
  unfold setList
  split
  · simp only [ResourceTimeline.list?, ResourceTimeline.map, fill, Function.update_of_ne h]
  · exact list?_newList_of_ne rid tl h items k

theorem list?_putList_none (n : ListMap) : (putList n rid none tl).list? n rid = none := by
  rw [ResourceTimeline.list?, map_putList, if_pos rfl, Function.update_self, Option.map_none]

theorem list?_putList_of_ne {n m : ListMap} (h : m ≠ n) (l : Option ℕ) (k : String) :
    (putList n rid l tl).list? m k = tl.list? m k := by
  rw [ResourceTimeline.list?, map_putList, if_neg h]
  rfl

theorem values_setList (n : ListMap) (items : List (Item n)) : (setList n rid items tl).values = tl.values := by
  unfold setList
  split <;> rfl

theorem values_put_of_ne {n m : ValueMap} (h : m ≠ n) (v : Value n) : (put n rid v tl).values m = tl.values m :=
  Function.update_of_ne h _ _

theorem get?_put (n : ValueMap) (v : Value n) : ((put n rid v tl).values n).get? rid = some v := by
  rw [put]
  dsimp only
  rw [Function.update_self, Dict.get?_insert_self]

/-! ## What is recorded beside the lanes -/

theorem values_recordInterval (interval : ℚ × ℚ) : (recordInterval rid interval tl).values = tl.values := by
  unfold recordInterval
  split
  · exact values_setList rid tl .intervals _
  · rfl

theorem list?_recordInterval {n : ListMap} (h : n ≠ .intervals) (interval : ℚ × ℚ) (k : String) :
    (recordInterval rid interval tl).list? n k = tl.list? n k := by
  unfold recordInterval
  split
  · exact list?_setList_of_ne rid tl h _ k
  · rfl

/-- A transfer's count leaves every resource as it stands. -/
theorem stands_countTransfer (bytes : ℕ) (start stop : ℚ) (k : String) :
    Stands k tl (countTransfer rid bytes start stop tl) := by
  have hput : Stands k tl (put .bytesMoved rid (((tl.values .bytesMoved).get? rid).getD 0 + bytes) tl) :=
    stands_of rfl rfl fun n hn => by rw [values_put_of_ne rid tl hn]
  refine hput.trans ?_
  unfold countTransfer recordPayload
  split
  · exact stands_of (list?_setList_of_ne rid _ (by decide) _ k) (list?_setList_of_ne rid _ (by decide) _ k) fun n _ => by
      rw [values_setList]
  · exact Stands.refl k _

end

/-! ## A booking -/

/-- What a reservation works out: the lane that may start first, and its
interval. -/
structure Planned (rid : String) (earliest duration : ℚ) (direction : Option String) (switch : ℚ) (tl : ResourceTimeline)
    (b : Booking) : Prop where
  lanes : b.lanes = lanesOf rid tl
  histories : b.histories = historiesOf rid tl
  index : b.index < (lanesOf rid tl).length
  start : b.start = eligible earliest direction switch ((lanesOf rid tl).getD b.index 0) ((historiesOf rid tl).getD b.index none)
  least : ∀ i < (lanesOf rid tl).length,
    b.start ≤ eligible earliest direction switch ((lanesOf rid tl).getD i 0) ((historiesOf rid tl).getD i none)
  stop : b.stop = b.start + duration
  busy : b.busy = busyOf rid tl + duration
  duration : 0 ≤ duration
  switch : 0 ≤ switch

theorem planReserve_planned {finite : ℚ → Bool} {rid : String} {earliest duration : ℚ} {direction : Option String}
    {switch : ℚ} {tl : ResourceTimeline} {b : Booking}
    (h : planReserve finite rid earliest duration direction switch tl = .ok b) :
    Planned rid earliest duration direction switch tl b := by
  simp only [planReserve, bind_ok, refuse_ok, number] at h
  obtain ⟨-, -, -, hduration, -, hswitch, -, hlanes, -, -, -, -, hb⟩ := h
  have hb := (Except.ok.inj hb).symm
  have hhistories : (ownHistories rid (lanesOf rid tl) tl).getD
      (List.replicate (lanesOf rid tl).length ((tl.values .directions).get? rid)) = historiesOf rid tl := rfl
  have hlength : (historiesOf rid tl).length = (lanesOf rid tl).length := length_histories rid _ tl _
  rw [hhistories] at hb
  have hstart : ∀ i < (lanesOf rid tl).length,
      (List.zipWith (eligible earliest direction switch) (lanesOf rid tl) (historiesOf rid tl)).getD i 0 =
        eligible earliest direction switch ((lanesOf rid tl).getD i 0) ((historiesOf rid tl).getD i none) := by
    intro i hi
    rw [List.getD_eq_getElem _ _ (by rw [List.length_zipWith]; omega), List.getElem_zipWith, List.getD_eq_getElem _ _ hi,
      List.getD_eq_getElem _ _ (by omega)]
  have hpos : 0 < (lanesOf rid tl).length := List.length_pos_iff.2 hlanes
  obtain ⟨hle, hbest⟩ := bestLane_spec
    (fun i => (List.zipWith (eligible earliest direction switch) (lanesOf rid tl) (historiesOf rid tl)).getD i 0)
    (fun i => (lanesOf rid tl).getD i 0) ((lanesOf rid tl).length - 1)
  subst hb
  refine ⟨rfl, rfl, by dsimp only; omega, hstart _ (by omega), fun i hi => ?_, rfl, rfl, not_lt.1 hduration,
    not_lt.1 hswitch⟩
  exact (hbest i (by omega)).trans_eq (hstart i hi)

section

variable (rid : String) (tl : ResourceTimeline) (direction : Option String) (b : Booking)

/-- The lanes' directions after the booking. -/
def Booking.turned (b : Booking) (direction : Option String) : List (Option String) :=
  if truthy direction then b.histories.set b.index direction else b.histories

theorem list?_recordDirection_of_ne {n : ListMap} (h : n ≠ .laneDirections) (k : String) :
    (recordDirection rid direction b tl).list? n k = tl.list? n k := by
  have hput : ∀ n, (if truthy direction then put .directions rid (direction.getD "") tl else tl).list? n k = tl.list? n k := by
    intro n
    split <;> rfl
  unfold recordDirection
  extract_lets tl' histories
  rw [← hput n]
  split
  · split
    · exact list?_setList_of_ne rid _ h _ k
    · exact list?_newList_of_ne rid _ h _ k
  · exact list?_putList_of_ne rid _ h _ k

theorem list?_recordDirection : (recordDirection rid direction b tl).list? .laneDirections rid =
    if 1 < b.lanes.length then some (b.turned direction) else none := by
  unfold recordDirection
  extract_lets tl' histories
  split
  · split
    · exact list?_setList rid _ .laneDirections _
    · exact list?_newList rid _ .laneDirections _
  · exact list?_putList_none rid _ .laneDirections

theorem values_recordDirection : (recordDirection rid direction b tl).values =
    (if truthy direction then put .directions rid (direction.getD "") tl else tl).values := by
  unfold recordDirection
  extract_lets tl' histories
  split
  · split
    · exact values_setList rid _ .laneDirections _
    · rfl
  · rfl

theorem lanesOf_book : lanesOf rid (book rid direction b tl) = b.lanes.set b.index b.stop := by
  rw [lanesOf, book, list?_recordDirection_of_ne rid _ direction b (by decide),
    list?_recordInterval rid _ (by decide)]
  exact congrArg (Option.getD · _) (list?_setList rid tl .laneAvailable _)

theorem busyOf_book : busyOf rid (book rid direction b tl) = b.busy := by
  have hkept : ∀ tl', ((recordDirection rid direction b tl').values .busyNs).get? rid = (tl'.values .busyNs).get? rid := by
    intro tl'
    rw [values_recordDirection]
    split
    · rw [values_put_of_ne rid tl' (by decide)]
    · rfl
  rw [busyOf, book, hkept, values_recordInterval]
  exact congrArg (Option.getD · 0) (get?_put rid _ .busyNs b.busy)

/-- The resource's own direction. -/
theorem directions_book : ((book rid direction b tl).values .directions).get? rid =
    if truthy direction then direction else (tl.values .directions).get? rid := by
  rw [book, values_recordDirection]
  split
  · next h =>
    rw [get?_put]
    cases direction with
    | none => simp [truthy] at h
    | some d => rfl
  · rw [values_recordInterval]
    change ((setList .laneAvailable rid _ tl).values .directions).get? rid = _
    rw [values_setList]

theorem list?_book : (book rid direction b tl).list? .laneDirections rid =
    if 1 < b.lanes.length then some (b.turned direction) else none := list?_recordDirection rid _ direction b

end

variable {earliest duration switch : ℚ} {direction : Option String} {b : Booking}

/-- The new directions of the lanes, whether they are a list of the resource's
own or its one direction. -/
theorem Planned.historiesOf_book (h : Planned rid earliest duration direction switch tl b) :
    historiesOf rid (book rid direction b tl) = b.turned direction := by
  have hlength : (historiesOf rid tl).length = (lanesOf rid tl).length := length_histories rid _ tl _
  have hturned : (b.turned direction).length = (lanesOf rid tl).length := by
    unfold Booking.turned
    rw [h.histories]
    split
    · rw [List.length_set, hlength]
    · exact hlength
  have hindex := h.index
  rw [historiesOf, lanesOf_book, ownHistories, List.length_set, list?_book, directions_book, h.lanes]
  split
  · next hmany =>
    have hown : Option.filter (fun histories => decide ((lanesOf rid tl).length ≠ 1 ∧ histories.length = (lanesOf rid tl).length))
        (some (b.turned direction)) = some (b.turned direction) :=
      Option.filter_eq_some_iff.2 ⟨rfl, decide_eq_true ⟨by omega, hturned⟩⟩
    rw [hown, Option.getD_some]
  · next hone =>
    -- a single lane has the resource's direction
    have hsingle : (lanesOf rid tl).length = 1 := by omega
    have hzero : b.index = 0 := by omega
    have hnone : ownHistories rid (lanesOf rid tl) tl = none := by
      rw [ownHistories, Option.filter_eq_none_iff]
      intro histories _ hin
      exact (of_decide_eq_true hin).1 hsingle
    have hhistories : historiesOf rid tl = [(tl.values .directions).get? rid] := by
      rw [historiesOf, hnone, Option.getD_none, hsingle, List.replicate_one]
    rw [Option.filter_none, Option.getD_none, hsingle, List.replicate_one, Booking.turned, h.histories, hhistories, hzero]
    split
    · rfl
    · rfl

end HeteroSim.Timeline
