/-
Runs of reservations and transfers, and the intervals they place on the lanes
(`reserve`, `transfer`). The log of the placements says when each lane is free
and where it last moved; every placement is made at the earliest start its
lanes allow, so no lane is ever booked twice.
-/
import HeteroSim.Timeline.Exact
import HeteroSim.Timeline.Lanes

namespace HeteroSim.Timeline

/-! ## Calls -/

inductive Call
  | reserve (resourceId : String) (earliest duration : ℚ) (direction : Option String) (switch : ℚ)
  | transfer (resourceId : String) (bytes : ℕ) (earliest bandwidth : ℚ) (direction : Option String) (switch : ℚ)

namespace Call

def earliest : Call → ℚ
  | .reserve _ earliest _ _ _ => earliest
  | .transfer _ _ earliest _ _ _ => earliest

def duration : Call → ℚ
  | .reserve _ _ duration _ _ => duration
  | .transfer _ bytes _ bandwidth _ _ => bytes / bandwidth

def direction : Call → Option String
  | .reserve _ _ _ direction _ => direction
  | .transfer _ _ _ _ direction _ => direction

def switch : Call → ℚ
  | .reserve _ _ _ _ switch => switch
  | .transfer _ _ _ _ _ switch => switch

def exec (finite : ℚ → Bool) : Call → TimelineM Transfer
  | .reserve rid earliest duration direction switch => Timeline.reserve finite rid earliest duration direction switch
  | .transfer rid bytes earliest bandwidth direction switch =>
    Timeline.transfer finite rid bytes earliest bandwidth direction switch

/-- The lane on which the call's interval goes. -/
def lane (finite : ℚ → Bool) (c : Call) (rid : String) (tl : ResourceTimeline) : ℕ :=
  ((planReserve finite rid c.earliest c.duration c.direction c.switch tl).toOption.map Booking.index).getD 0

end Call

/-! ## Placements -/

/-- An interval on a lane, with the arrival and the costs it was asked for. -/
structure Placement where
  resourceId : String
  lane : ℕ
  start : ℚ
  stop : ℚ
  earliest : ℚ
  duration : ℚ
  direction : Option String
  switch : ℚ

/-- The placement is on that lane. -/
def Placement.On (p : Placement) (rid : String) (lane : ℕ) : Prop := p.resourceId = rid ∧ p.lane = lane

instance (p : Placement) (rid : String) (lane : ℕ) : Decidable (p.On rid lane) := inferInstanceAs (Decidable (_ ∧ _))

/-- What a call that returned has placed. -/
def Call.placement (finite : ℚ → Bool) (c : Call) (tl : ResourceTimeline) (t : Transfer) : Placement :=
  ⟨t.resourceId, c.lane finite t.resourceId tl, t.start, t.stop, c.earliest, c.duration, c.direction, c.switch⟩

/-- The placements of the calls, the newest first, and the calendar after
them. A call that raises places nothing. -/
def placements (finite : ℚ → Bool) : ResourceTimeline → List Placement → List Call → List Placement × ResourceTimeline
  | tl, log, [] => (log, tl)
  | tl, log, c :: calls =>
    match c.exec finite tl with
    | .ok t tl' => placements finite tl' (c.placement finite tl t :: log) calls
    | .error _ tl' => placements finite tl' log calls

section

variable (tl : ResourceTimeline)

/-- When a lane is free: at the end of its last placement. -/
def freeAt : List Placement → String → ℕ → ℚ
  | [], rid, lane => (lanesOf rid tl).getD lane 0
  | p :: before, rid, lane => if p.On rid lane then p.stop else freeAt before rid lane

/-- Where a lane last moved. -/
def facing : List Placement → String → ℕ → Option String
  | [], rid, lane => (historiesOf rid tl).getD lane none
  | p :: before, rid, lane => if p.On rid lane ∧ truthy p.direction = true then p.direction else facing before rid lane

/-- When the placement might start on the lane: on arrival, or once the lane is
free and has turned. -/
def startOn (before : List Placement) (p : Placement) (lane : ℕ) : ℚ :=
  eligible p.earliest p.direction p.switch (freeAt tl before p.resourceId lane) (facing tl before p.resourceId lane)

/-- The placement's lane has to turn for it. -/
def Turns (before : List Placement) (p : Placement) : Prop :=
  truthy p.direction = true ∧ truthy (facing tl before p.resourceId p.lane) = true ∧
    facing tl before p.resourceId p.lane ≠ p.direction

/-- **The placement starts as early as any lane allows, after the placements
before it.** -/
structure Fits (before : List Placement) (p : Placement) : Prop where
  lane : p.lane < (lanesOf p.resourceId tl).length
  start : p.start = startOn tl before p p.lane
  least : ∀ lane < (lanesOf p.resourceId tl).length, p.start ≤ startOn tl before p lane
  stop : p.stop = p.start + p.duration
  duration : 0 ≤ p.duration
  switch : 0 ≤ p.switch

/-- Every placement of the log fits after those before it. -/
def AllFit (log : List Placement) : Prop := ∀ p before, p :: before <:+ log → Fits tl before p

end

/-! ## Nothing is booked twice -/

variable {tl : ResourceTimeline} {log before : List Placement} {p : Placement}

theorem le_eligible {earliest switch lane : ℚ} {direction history : Option String} (hswitch : 0 ≤ switch) :
    lane ≤ eligible earliest direction switch lane history := by
  unfold eligible
  split
  · exact (le_add_of_nonneg_right hswitch).trans (le_max_right _ _)
  · exact le_max_right _ _

theorem Fits.free_le (h : Fits tl before p) : freeAt tl before p.resourceId p.lane ≤ p.start := by
  rw [h.start]
  exact le_eligible h.switch

theorem Fits.turned_le (h : Fits tl before p) (ht : Turns tl before p) :
    freeAt tl before p.resourceId p.lane + p.switch ≤ p.start := by
  unfold Turns at ht
  rw [h.start, startOn, eligible, if_pos ht]
  exact le_max_right _ _

theorem AllFit.tail (h : AllFit tl (p :: log)) : AllFit tl log :=
  fun q before hq => h q before (hq.trans (List.suffix_cons p log))

/-- A lane is free once all its placements have ended. -/
theorem AllFit.stop_le : ∀ {log : List Placement}, AllFit tl log → ∀ q ∈ log, q.stop ≤ freeAt tl log q.resourceId q.lane
  | [], _, q, hq => by cases hq
  | p :: log, h, q, hq => by
    have hfits := h p log List.suffix_rfl
    rw [freeAt]
    rcases List.mem_cons.1 hq with rfl | hq
    · rw [if_pos ⟨rfl, rfl⟩]
    · have hbefore := h.tail.stop_le q hq
      split
      · next hon =>
        rw [← hon.1, ← hon.2] at hbefore
        have hstop := hfits.stop
        have hfree := hfits.free_le
        have hduration := hfits.duration
        linarith
      · exact hbefore

/-! ## The log and the calendar -/

/-- A call's placement, and the calendar after it. -/
structure Placed (tl : ResourceTimeline) (p : Placement) (tl' : ResourceTimeline) : Prop where
  planned : ∃ b : Booking, Planned p.resourceId p.earliest p.duration p.direction p.switch tl b ∧ b.index = p.lane ∧
    b.start = p.start ∧ b.stop = p.stop
  lanes : lanesOf p.resourceId tl' = (lanesOf p.resourceId tl).set p.lane p.stop
  histories : historiesOf p.resourceId tl' =
    if truthy p.direction then (historiesOf p.resourceId tl).set p.lane p.direction else historiesOf p.resourceId tl
  busy : busyOf p.resourceId tl' = busyOf p.resourceId tl + p.duration
  others : ∀ rid, rid ≠ p.resourceId → Stands rid tl tl'
  separate : Separate tl'

/-- The booking is made in the calendar, in which nothing else is edited. -/
def Booked (finite : ℚ → Bool) (c : Call) (tl : ResourceTimeline) (t : Transfer) (tl' : ResourceTimeline) : Prop :=
  ∃ b, planReserve finite t.resourceId c.earliest c.duration c.direction c.switch tl = .ok b ∧ t.start = b.start ∧
    t.stop = b.stop ∧ Edits (· = t.resourceId) (rememberResource t.resourceId tl) tl' ∧
    Stands t.resourceId (book t.resourceId c.direction b (rememberResource t.resourceId tl)) tl'

/-- A call that raises has at most remembered its resource. -/
def Left (tl tl' : ResourceTimeline) : Prop := tl' = tl ∨ ∃ rid, tl' = rememberResource rid tl

theorem reserve_booked (finite : ℚ → Bool) (resourceId : String) (earliest duration : ℚ) (direction : Option String)
    (switch : ℚ) (tl : ResourceTimeline) :
    wp (reserve finite resourceId earliest duration direction switch)
      (fun t tl' => canonicalResourceId tl resourceId = .ok t.resourceId ∧
        Booked finite (.reserve resourceId earliest duration direction switch) tl t tl')
      (fun _ tl' => Left tl tl') tl := by
  simp only [reserve, wp_bind, wp_get, wp_raise, wp_modify, wp_pure]
  refine ⟨fun _ _ => ⟨fun rid hrid => ⟨fun b hb => ⟨hrid, b, hb, rfl, rfl, book_edits rid _ direction b, Stands.refl _ _⟩,
    fun _ _ => .inr ⟨rid, rfl⟩⟩, fun _ _ => .inl rfl⟩, fun _ _ => .inl rfl⟩

theorem Call.exec_booked (finite : ℚ → Bool) (c : Call) (tl : ResourceTimeline) :
    wp (c.exec finite) (fun t tl' => Booked finite c tl t tl') (fun _ tl' => Left tl tl') tl := by
  cases c with
  | reserve rid earliest duration direction switch =>
    exact wp_mono (reserve_booked finite rid earliest duration direction switch tl) (fun _ _ h => h.2) fun _ _ h => h
  | transfer resourceId bytes earliest bandwidth direction switch =>
    simp only [exec, Timeline.transfer, wp_bind, wp_get, wp_raise, wp_modify, wp_pure]
    refine ⟨fun rid hrid => ⟨fun _ _ => ?_, fun _ _ => .inl rfl⟩, fun _ _ => .inl rfl⟩
    refine wp_mono (reserve_booked finite rid earliest (bytes / bandwidth) direction switch tl) ?_ fun _ _ h => h
    rintro t tl' ⟨hself, b, hb, hstart, hstop, hedits, hstands⟩
    -- the canonical name is its own
    have hsame : t.resourceId = rid := (Except.ok.inj ((canonical_idem hrid).symm.trans hself)).symm
    rw [hsame] at hb hedits hstands
    exact ⟨b, hb, hstart, hstop, hedits.trans (countTransfer_edits rid tl' bytes _ _),
      hstands.trans (stands_countTransfer rid tl' bytes _ _ rid)⟩

theorem Booked.placed {finite : ℚ → Bool} {c : Call} {tl tl' : ResourceTimeline} {t : Transfer} (hs : Separate tl)
    (h : Booked finite c tl t tl') : Placed tl (c.placement finite tl t) tl' := by
  obtain ⟨b, hb, hstart, hstop, hedits, hstands⟩ := h
  have hplanned := planReserve_planned hb
  have hplanned' : Planned t.resourceId c.earliest c.duration c.direction c.switch (rememberResource t.resourceId tl) b :=
    planReserve_planned hb
  have hlane : c.lane finite t.resourceId tl = b.index := by
    rw [Call.lane, hb]
    rfl
  refine ⟨⟨b, hplanned, hlane.symm, hstart.symm, hstop.symm⟩, ?_, ?_, ?_, fun rid hrid => ?_, hs.remember.edits hedits⟩
  · exact hstands.lanes.trans (by rw [lanesOf_book, hplanned.lanes, Call.placement, hlane, hstop])
  · exact hstands.histories.trans (by
      rw [hplanned'.historiesOf_book, Booking.turned, hplanned.histories, Call.placement, hlane])
  · exact hstands.busy.trans (by rw [busyOf_book, hplanned.busy, Call.placement])
  · exact (stands_remember rid).trans (hs.remember.stands hedits hrid)

/-- The log tells what the calendar holds. -/
structure Tells (tl₀ : ResourceTimeline) (log : List Placement) (tl : ResourceTimeline) : Prop where
  length : ∀ rid, (lanesOf rid tl).length = (lanesOf rid tl₀).length
  clocks : ∀ rid, ∀ lane < (lanesOf rid tl₀).length, (lanesOf rid tl).getD lane 0 = freeAt tl₀ log rid lane
  directions : ∀ rid, ∀ lane < (lanesOf rid tl₀).length, (historiesOf rid tl).getD lane none = facing tl₀ log rid lane
  busy : ∀ rid, busyOf rid tl =
    busyOf rid tl₀ + ((log.filter fun p => decide (p.resourceId = rid)).map Placement.duration).sum
  separate : Separate tl

theorem tells_nil (h : Separate tl) : Tells tl [] tl :=
  ⟨fun _ => rfl, fun _ _ _ => rfl, fun _ _ _ => rfl, fun _ => (add_zero _).symm, h⟩

variable {tl₀ tl' : ResourceTimeline}

theorem Tells.left (h : Tells tl₀ log tl) (hl : Left tl tl') : Tells tl₀ log tl' := by
  rcases hl with rfl | ⟨rid, rfl⟩
  · exact h
  · exact ⟨h.length, h.clocks, h.directions, h.busy, h.separate.remember⟩

/-- A placement fits after the log that tells the calendar it is made in. -/
theorem Tells.fits (h : Tells tl₀ log tl) (hp : Placed tl p tl') : Fits tl₀ log p := by
  obtain ⟨b, hb, hindex, hstart, hstop⟩ := hp.planned
  have hread : ∀ lane < (lanesOf p.resourceId tl₀).length,
      eligible p.earliest p.direction p.switch ((lanesOf p.resourceId tl).getD lane 0)
        ((historiesOf p.resourceId tl).getD lane none) = startOn tl₀ log p lane := by
    intro lane hlane
    rw [h.clocks _ lane hlane, h.directions _ lane hlane, startOn]
  have hlane : p.lane < (lanesOf p.resourceId tl₀).length := by
    rw [← hindex, ← h.length]
    exact hb.index
  refine ⟨hlane, ?_, fun lane hlt => ?_, ?_, hb.duration, hb.switch⟩
  · rw [← hstart, hb.start, hindex, hread p.lane hlane]
  · rw [← hstart, ← hread lane hlt]
    exact hb.least lane (by rwa [h.length])
  · rw [← hstop, hb.stop, hstart]

theorem getD_set {α : Type} (l : List α) {i j : ℕ} (a d : α) (hj : j < l.length) :
    (l.set i a).getD j d = if i = j then a else l.getD j d := by
  rw [List.getD_eq_getElem _ _ (by rwa [List.length_set]), List.getElem_set, List.getD_eq_getElem _ _ hj]

/-- The log goes on to tell the calendar. -/
theorem Tells.placed (h : Tells tl₀ log tl) (hp : Placed tl p tl') : Tells tl₀ (p :: log) tl' := by
  have hhistories : ∀ rid, (historiesOf rid tl).length = (lanesOf rid tl).length := fun rid => length_histories rid _ tl _
  constructor
  · intro rid
    by_cases hrid : rid = p.resourceId
    · rw [hrid, hp.lanes, List.length_set, h.length]
    · rw [(hp.others rid hrid).lanes, h.length]
  · intro rid lane hlane
    rw [freeAt]
    by_cases hrid : rid = p.resourceId
    · subst hrid
      rw [hp.lanes, getD_set _ _ _ (by rwa [h.length]), h.clocks _ lane hlane]
      simp only [Placement.On, true_and]
    · rw [(hp.others rid hrid).lanes, h.clocks rid lane hlane, if_neg fun hon => hrid hon.1.symm]
  · intro rid lane hlane
    rw [facing]
    by_cases hrid : rid = p.resourceId
    · subst hrid
      rw [hp.histories]
      split
      · next htruthy =>
        rw [getD_set _ _ _ (by rwa [hhistories, h.length]), h.directions _ lane hlane]
        simp only [Placement.On, true_and, htruthy, and_true]
      · next hfalse => rw [h.directions _ lane hlane, if_neg fun hon => hfalse hon.2]
    · rw [(hp.others rid hrid).histories, h.directions rid lane hlane, if_neg fun hon => hrid hon.1.1.symm]
  · intro rid
    rw [List.filter_cons]
    by_cases hrid : rid = p.resourceId
    · subst hrid
      rw [if_pos (decide_eq_true rfl), List.map_cons, List.sum_cons, hp.busy, h.busy]
      ring
    · rw [if_neg fun hc => hrid (of_decide_eq_true hc).symm, (hp.others rid hrid).busy, h.busy]
  · exact hp.separate

theorem AllFit.cons (h : AllFit tl log) (hp : Fits tl log p) : AllFit tl (p :: log) := by
  intro q before hq
  rcases List.suffix_cons_iff.1 hq with heq | hq
  · obtain ⟨rfl, rfl⟩ := List.cons.inj heq
    exact hp
  · exact h q before hq

/-- A whole run from any calendar its log tells. -/
theorem Tells.placements (finite : ℚ → Bool) : ∀ (calls : List Call) {tl : ResourceTimeline} {log : List Placement},
    Tells tl₀ log tl → AllFit tl₀ log → AllFit tl₀ (placements finite tl log calls).1 ∧
      Tells tl₀ (placements finite tl log calls).1 (placements finite tl log calls).2
  | [], _, _, h, hfit => ⟨hfit, h⟩
  | c :: calls, tl, log, h, hfit => by
    have hspec := c.exec_booked finite tl
    rw [Timeline.placements]
    unfold wp at hspec
    split at hspec
    · next t tl' hexec =>
      rw [hexec]
      have hp := hspec.placed h.separate
      exact (h.placed hp).placements finite calls (hfit.cons (h.fits hp))
    · next e tl' hexec =>
      rw [hexec]
      exact (h.left hspec).placements finite calls hfit

/-- **Whatever is reserved and transferred, in whatever order of arrival: each
placement is at the earliest start its lanes allow, after every earlier one on
its lane has ended and the lane has turned, and a resource is busy for the
durations placed on it.** -/
theorem reservations_never_overlap (finite : ℚ → Bool) (h : Separate tl) (calls : List Call) :
    (∀ p before, p :: before <:+ (placements finite tl [] calls).1 → Fits tl before p ∧
      ∀ q ∈ before, q.On p.resourceId p.lane →
        q.stop ≤ p.start ∧ (Turns tl before p → q.stop + p.switch ≤ p.start)) ∧
    ∀ rid, busyOf rid (placements finite tl [] calls).2 = busyOf rid tl +
      (((placements finite tl [] calls).1.filter fun p => decide (p.resourceId = rid)).map Placement.duration).sum := by
  have hnil : AllFit tl [] := fun p before hp => absurd (List.suffix_nil.1 hp) (List.cons_ne_nil p before)
  obtain ⟨hfit, htells⟩ := (tells_nil h).placements finite calls hnil
  refine ⟨fun p before hp => ⟨hfit p before hp, fun q hq hon => ?_⟩, htells.busy⟩
  have hfits := hfit p before hp
  have hbefore : AllFit tl before := fun r rest hr => hfit r rest (hr.trans ((List.suffix_cons p before).trans hp))
  have hfree := hbefore.stop_le q hq
  rw [hon.1, hon.2] at hfree
  exact ⟨hfree.trans hfits.free_le, fun ht => (by linarith [hfits.turned_le ht])⟩

theorem twoPorts_separate : Separate (twoPorts false) where
  allocated := twoPorts_allocated false
  own n rid k l hi hk := by
    match n with
    | .laneAvailable =>
      have hone : ∀ j, ((Dict.empty.insert "x" 0).insert "y" 1).get? j = some l → j = if l = 0 then "x" else "y" := by
        intro j hj
        by_cases hy : j = "y"
        · subst hy
          rw [Dict.get?_insert_self] at hj
          rw [if_neg (by simp [← Option.some.inj hj])]
        · rw [Dict.get?_insert_of_ne _ _ hy] at hj
          by_cases hx : j = "x"
          · subst hx
            rw [Dict.get?_insert_self] at hj
            rw [if_pos (Option.some.inj hj).symm]
          · rw [Dict.get?_insert_of_ne _ _ hx] at hj
            cases hj
      exact (hone rid hi).trans (hone k hk).symm
    | .laneDirections =>
      have hone : ∀ j, (Dict.empty.insert "y" 0).get? j = some l → j = "y" := by
        intro j hj
        by_contra hne
        rw [Dict.get?_insert_of_ne _ _ hne] at hj
        cases hj
      exact (hone rid hi).trans (hone k hk).symm
    | .intervals => cases hi
    | .intervalPayloads => cases hi

/-- Reads and writes on the two lanes of `y`, arriving out of order. -/
def someMoves : List Call :=
  [.reserve "y" 0 1 (some "write") 2, .transfer "x" 64 1 32 (some "read") 0, .reserve "y" 0 3 (some "read") 2,
    .reserve "y" 9 2 none 0, .transfer "y" 8 0 4 (some "read") 5]

theorem reservations_never_overlap_someMoves :
    ((placements (fun _ => true) (twoPorts false) [] someMoves).1.map fun p => (p.resourceId, p.lane, p.start, p.stop)) =
      [("y", 0, 3, 5), ("y", 1, 9, 11), ("y", 0, 0, 3), ("x", 0, 1, 3), ("y", 1, 0, 1)] ∧
    busyOf "y" (placements (fun _ => true) (twoPorts false) [] someMoves).2 = 8 := by
  obtain ⟨-, hbusy⟩ := reservations_never_overlap (fun _ => true) twoPorts_separate someMoves
  refine ⟨by decide +kernel, ?_⟩
  rw [hbusy "y"]
  decide +kernel

end HeteroSim.Timeline
