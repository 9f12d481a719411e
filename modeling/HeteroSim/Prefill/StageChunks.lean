/-
A prompt in several chunks, timed from sampled layers: a layer's step at a
context that was not sampled follows a line between its neighbours, and the
chunks chain stage by stage. Every time is an interval of two ends.
-/
import HeteroSim.Collect
import HeteroSim.InStep

namespace HeteroSim.Prefill

inductive Raised
  | index | key | type | stopIteration | zeroDivision
deriving DecidableEq

/-- A lower and an upper end. -/
abbrev Interval := ℚ × ℚ

/-- `interval[bound]` -/
def Interval.at (i : Interval) (bound : Fin 2) : ℚ := if bound = 0 then i.1 else i.2

/-- `l[i]`; a negative index counts from the end. -/
def item {α : Type} (l : List α) (i : Int) : Except Raised α :=
  let place := if i < 0 then i + l.length else i
  if place < 0 then .error .index else (l[place.toNat]?).elim (.error .index) .ok

/-! ## Steps between samples -/

/-- A context and a layer's step there. -/
abbrev Point := ℚ × Interval

/-- `sorted(points)` compares contexts, then lower ends, then upper ends. -/
def Point.le (p q : Point) : Bool :=
  decide (p.1 < q.1 ∨ p.1 = q.1 ∧ (p.2.1 < q.2.1 ∨ p.2.1 = q.2.1 ∧ p.2.2 ≤ q.2.2))

def Interval.mid (row : Interval) : ℚ := (row.1 + row.2) / 2

/-- How far the middle point lies from the line through the first and the last. -/
def lineResidual (points : List Point) : Except Raised ℚ :=
  if points.length < 3 then .ok 0 else do
    let first ← item points 0
    let middle ← item points (points.length / 2 : ℕ)
    let last ← item points (-1)
    if last.1 - first.1 = 0 then .error .zeroDivision
    else return |first.2.mid + (last.2.mid - first.2.mid) * (middle.1 - first.1) / (last.1 - first.1) - middle.2.mid|

/-- The row of a context. -/
def stepAt (points : List Point) (sampled : Dict ℚ Interval) (residual context : ℚ) : Except Raised Interval :=
  match sampled.get? context with
  | some row => .ok row
  | none =>
    match (points.zip points.tail).find? fun p => p.1.1 < context ∧ context < p.2.1 with
    | none => .error .stopIteration
    | some p =>
      let share := (context - p.1.1) / (p.2.1 - p.1.1)
      let a := p.1.2
      let b := p.2.2
      .ok (max a.1 (a.1 + (b.1 - a.1) * share - residual), min b.2 (a.2 + (b.2 - a.2) * share + residual))

/-- `_linear_steps` -/
def linearSteps (points : List Point) (contexts : List ℚ) : Except Raised (List Interval × ℚ) := do
  let points := points.mergeSort Point.le
  let residual ← lineResidual points
  let rows ← contexts.mapM (stepAt points (.collect points) residual)
  return (rows, residual)

/-! ## Chunks in a chain -/

/-- A stage of a chunk: its body, and its exit after. -/
structure Stage where
  body : Interval
  exit : Interval

/-- Where a chunk's stages have ended, and when the next may start. -/
structure Chain where
  ends : List ℚ
  done : List ℚ
  ready : ℚ

/-- When a stage starts, behind the chunk before if there is one. -/
def startOf (layers exits : List ℚ) (waits : List (List Int)) (gaps : Dict Int Interval) (bound : Fin 2) (stage : ℕ) (ready : ℚ) :
    Except Raised ℚ := do
  let before ← item exits stage
  let others ← item waits stage
  let frontends ← others.mapM fun other => do
    let layer ← item layers other
    let gap ← (gaps.get? other).elim (.error .key) .ok
    return layer + gap.at bound
  return frontends.foldl max (max ready before)

def chainStage (previous : Option (List ℚ × List ℚ)) (waits : List (List Int)) (gaps : Dict Int Interval) (bound : Fin 2)
    (s : Chain) (row : Stage × ℕ) : Except Raised Chain := do
  let start ← previous.elim (.ok s.ready) fun p => startOf p.1 p.2 waits gaps bound row.2 s.ready
  let ending := start + row.1.body.at bound
  let ready := ending + row.1.exit.at bound
  return ⟨s.ends ++ [ending], s.done ++ [ready], ready⟩

def chainChunk (waits : List (List Int)) (gaps : Dict Int Interval) (bound : Fin 2) (previous : Option (List ℚ × List ℚ))
    (stages : List Stage) : Except Raised (Option (List ℚ × List ℚ)) := do
  let chain ← stages.zipIdx.foldlM (chainStage previous waits gaps bound) ⟨[], [], 0⟩
  return some (chain.ends, chain.done)

/-- `_chained_chunks` -/
def chainedChunks (chunks : List (List Stage)) (waits : List (List Int)) (gaps : Dict Int Interval) (bound : Fin 2) :
    Except Raised ℚ := do
  let last ← chunks.foldlM (chainChunk waits gaps bound) none
  last.elim (.error .type) fun p => item p.1 (-1)

/-! ## The order of a chain -/

theorem item_inStep {α β : Type} {R : α → β → Prop} {l : List α} {m : List β} (h : List.Forall₂ R l m) (i : Int) :
    InStep R (item l i) (item m i) := by
  unfold item
  rw [h.length_eq]
  generalize (if i < 0 then i + (m.length : Int) else i) = place
  dsimp only
  split
  · exact .error _
  · generalize place.toNat = n
    induction h generalizing n with
    | nil => exact .error _
    | cons hab _ ih =>
      cases n with
      | zero => exact .ok hab
      | succ n => exact ih n

/-- One interval's chosen end is at most another's. -/
def EndLe (bound bound' : Fin 2) (i j : Interval) : Prop := i.at bound ≤ j.at bound'

def StageLe (bound bound' : Fin 2) (r r' : Stage) : Prop := EndLe bound bound' r.body r'.body ∧ EndLe bound bound' r.exit r'.exit

/-- The same stages have gaps, and each is at most the other. -/
def GapsLe (bound bound' : Fin 2) (gaps gaps' : Dict Int Interval) : Prop :=
  ∀ stage, Option.Rel (EndLe bound bound') (gaps.get? stage) (gaps'.get? stage)

def ChunksLe (bound bound' : Fin 2) (chunks chunks' : List (List Stage)) : Prop :=
  List.Forall₂ (List.Forall₂ (StageLe bound bound')) chunks chunks'

/-- The end times of one chain are at most the other's. -/
structure Chain.Le (s s' : Chain) : Prop where
  ends : List.Forall₂ (· ≤ ·) s.ends s'.ends
  done : List.Forall₂ (· ≤ ·) s.done s'.done
  ready : s.ready ≤ s'.ready

def TimesLe (p p' : List ℚ × List ℚ) : Prop := List.Forall₂ (· ≤ ·) p.1 p'.1 ∧ List.Forall₂ (· ≤ ·) p.2 p'.2

variable {bound bound' : Fin 2} {waits : List (List Int)} {gaps gaps' : Dict Int Interval}

theorem foldl_max_mono {l m : List ℚ} (h : List.Forall₂ (· ≤ ·) l m) : ∀ {x y : ℚ}, x ≤ y → l.foldl max x ≤ m.foldl max y := by
  induction h with
  | nil => exact id
  | cons hab _ ih => exact fun hxy => ih (max_le_max hxy hab)

theorem startOf_inStep (hgaps : GapsLe bound bound' gaps gaps') {p p' : List ℚ × List ℚ} (hp : TimesLe p p') (stage : ℕ)
    {ready ready' : ℚ} (hready : ready ≤ ready') :
    InStep (· ≤ ·) (startOf p.1 p.2 waits gaps bound stage ready) (startOf p'.1 p'.2 waits gaps' bound' stage ready') := by
  unfold startOf
  refine (item_inStep hp.2 stage).bind fun before before' hbefore => ?_
  have hsame : ∀ {α : Type} (l : List α), List.Forall₂ (fun a b => a = b) l l := fun l => List.forall₂_same.2 fun _ _ => rfl
  refine (item_inStep (hsame waits) stage).bind fun others others' hothers => ?_
  subst hothers
  have hfrontend : ∀ other other', other = other' → InStep (fun x y : ℚ => x ≤ y)
      (do let layer ← item p.1 other; let gap ← (gaps.get? other).elim (.error .key) .ok; return layer + gap.at bound)
      (do let layer ← item p'.1 other'; let gap ← (gaps'.get? other').elim (.error .key) .ok; return layer + gap.at bound') := by
    rintro other _ rfl
    refine (item_inStep hp.1 other).bind fun layer layer' hlayer => ?_
    have hgap := hgaps other
    generalize gaps.get? other = gap at hgap ⊢
    generalize gaps'.get? other = gap' at hgap ⊢
    cases hgap with
    | some hle => exact .ok (add_le_add hlayer hle)
    | none => exact .error _
  exact (InStep.mapM hfrontend (hsame others)).bind fun waited waited' hwaited =>
    .ok (foldl_max_mono hwaited (max_le_max hready hbefore))

/-- **A stage keeps the chains in order.** -/
theorem chainStage_inStep (hgaps : GapsLe bound bound' gaps gaps') {previous previous' : Option (List ℚ × List ℚ)}
    (hprevious : Option.Rel TimesLe previous previous') {s s' : Chain} (hs : s.Le s') {row row' : Stage × ℕ}
    (hrow : StageLe bound bound' row.1 row'.1 ∧ row.2 = row'.2) :
    InStep Chain.Le (chainStage previous waits gaps bound s row) (chainStage previous' waits gaps' bound' s' row') := by
  obtain ⟨⟨hbody, hexit⟩, hstage⟩ := hrow
  unfold chainStage
  have hstart : InStep (· ≤ ·) (previous.elim (.ok s.ready) fun p => startOf p.1 p.2 waits gaps bound row.2 s.ready)
      (previous'.elim (.ok s'.ready) fun p => startOf p.1 p.2 waits gaps' bound' row'.2 s'.ready) := by
    rw [hstage]
    cases hprevious with
    | some hp => exact startOf_inStep hgaps hp _ hs.ready
    | none => exact .ok hs.ready
  refine hstart.bind fun start start' hle => .ok ?_
  have hending : start + row.1.body.at bound ≤ start' + row'.1.body.at bound' := add_le_add hle hbody
  have hready := add_le_add hending hexit
  exact ⟨List.rel_append hs.ends (.cons hending .nil), List.rel_append hs.done (.cons hready .nil), hready⟩

theorem chainChunk_inStep (hgaps : GapsLe bound bound' gaps gaps') {previous previous' : Option (List ℚ × List ℚ)}
    (hprevious : Option.Rel TimesLe previous previous') {stages stages' : List Stage}
    (hstages : List.Forall₂ (StageLe bound bound') stages stages') :
    InStep (Option.Rel TimesLe) (chainChunk waits gaps bound previous stages) (chainChunk waits gaps' bound' previous' stages') := by
  have hstage : ∀ s s' row row', Chain.Le s s' → (StageLe bound bound' row.1 row'.1 ∧ row.2 = row'.2) →
      InStep Chain.Le (chainStage previous waits gaps bound s row) (chainStage previous' waits gaps' bound' s' row') :=
    fun _ _ _ _ hs hrow => chainStage_inStep hgaps hprevious hs hrow
  have hstart : Chain.Le ⟨[], [], 0⟩ ⟨[], [], 0⟩ := ⟨.nil, .nil, le_rfl⟩
  exact (InStep.foldlM hstage (forall₂_zipIdx hstages 0) hstart).bind fun chain chain' hchain =>
    .ok (.some ⟨hchain.ends, hchain.done⟩)

/-- **The end of the chain is monotone in every interval's chosen end.** -/
theorem chainedChunks_inStep {chunks chunks' : List (List Stage)} (hchunks : ChunksLe bound bound' chunks chunks')
    (hgaps : GapsLe bound bound' gaps gaps') :
    InStep (· ≤ ·) (chainedChunks chunks waits gaps bound) (chainedChunks chunks' waits gaps' bound') := by
  have hchunk : ∀ previous previous' stages stages', Option.Rel TimesLe previous previous' →
      List.Forall₂ (StageLe bound bound') stages stages' →
      InStep (Option.Rel TimesLe) (chainChunk waits gaps bound previous stages) (chainChunk waits gaps' bound' previous' stages') :=
    fun _ _ _ _ hprevious hstages => chainChunk_inStep hgaps hprevious hstages
  unfold chainedChunks
  refine (InStep.foldlM hchunk hchunks Option.Rel.none).bind fun last last' hlast => ?_
  cases hlast with
  | some hp => exact item_inStep hp.1 _
  | none => exact .error _

/-! ## The order of a step -/

/-- The sampled contexts next to one that was not sampled. -/
structure Neighbours (points : List Point) (context : ℚ) (p q : Point) : Prop where
  left : p ∈ points
  right : q ∈ points
  below : p.1 < context
  above : context < q.1
  next : ∀ r ∈ points, r.1 ≤ p.1 ∨ q.1 ≤ r.1

theorem Neighbours.perm {points points' : List Point} {context : ℚ} {p q : Point} (h : Neighbours points context p q)
    (hperm : points.Perm points') : Neighbours points' context p q :=
  ⟨hperm.mem_iff.1 h.left, hperm.mem_iff.1 h.right, h.below, h.above, fun r hr => h.next r (hperm.mem_iff.2 hr)⟩

/-- With one point a context, a context has one pair of neighbours. -/
theorem Neighbours.unique {points : List Point} {context : ℚ} {p q p' q' : Point} (h : Neighbours points context p q)
    (h' : Neighbours points context p' q') (hdistinct : (points.map Prod.fst).Nodup) : p = p' ∧ q = q' := by
  have hinj := List.inj_on_of_nodup_map hdistinct
  have hleft := h.next p' h'.left
  have hleft' := h'.next p h.left
  have hright := h.next q' h'.right
  have hright' := h'.next q h.right
  have := h.below
  have := h.above
  have := h'.below
  have := h'.above
  exact ⟨hinj h.left h'.left (by grind), hinj h.right h'.right (by grind)⟩

/-- **Between neighbours the row's ends are in order just when the left one's lower end is at most the right one's upper end.** -/
theorem between_le_iff {a b : Interval} (ha : a.1 ≤ a.2) (hb : b.1 ≤ b.2) {share residual : ℚ} (hpos : 0 ≤ share) (hle : share ≤ 1)
    (hresidual : 0 ≤ residual) : max a.1 (a.1 + (b.1 - a.1) * share - residual) ≤
      min b.2 (a.2 + (b.2 - a.2) * share + residual) ↔ a.1 ≤ b.2 := by
  constructor
  · exact fun h => (le_max_left _ _).trans (h.trans (min_le_left _ _))
  · intro h
    have hlower : a.1 + (b.1 - a.1) * share ≤ b.2 := by nlinarith
    have hupper : a.1 ≤ a.2 + (b.2 - a.2) * share := by nlinarith
    have hline : a.1 + (b.1 - a.1) * share ≤ a.2 + (b.2 - a.2) * share := by nlinarith
    refine max_le (le_min h ?_) (le_min ?_ ?_)
    · linarith
    · linarith
    · linarith

theorem le_total' (p q : Point) : (Point.le p q || Point.le q p) = true := by
  simp only [Point.le, Bool.or_eq_true, decide_eq_true_eq]
  grind

theorem le_trans' (p q r : Point) (hpq : Point.le p q = true) (hqr : Point.le q r = true) : Point.le p r = true := by
  simp only [Point.le, decide_eq_true_eq] at *
  grind

/-- The sorted points stand at growing contexts. -/
theorem sorted_increasing {points : List Point} (hdistinct : (points.map Prod.fst).Nodup) :
    (points.mergeSort Point.le).Pairwise fun p q => p.1 < q.1 := by
  have hsorted := List.pairwise_mergeSort le_trans' le_total' points
  have hnodup : ((points.mergeSort Point.le).map Prod.fst).Nodup := ((List.mergeSort_perm points _).map _).nodup_iff.2 hdistinct
  rw [List.Nodup, List.pairwise_map] at hnodup
  refine (hsorted.and hnodup).imp ?_
  intro p q h
  have hle := of_decide_eq_true h.1
  grind

/-- A context between two points lies between two next to each other. -/
theorem find_neighbours {context : ℚ} : ∀ {points : List Point} {first : Point},
    (first :: points).Pairwise (fun p q => p.1 < q.1) → first.1 < context → (∀ p ∈ points, p.1 ≠ context) →
    (∃ q ∈ points, context < q.1) →
    ∃ p, ((first :: points).zip points).find? (fun p => decide (p.1.1 < context ∧ context < p.2.1)) = some p ∧
      Neighbours (first :: points) context p.1 p.2
  | [], _, _, _, _, h => by
    obtain ⟨q, hq, -⟩ := h
    cases hq
  | second :: points, first, hsorted, hfirst, hne, hlast => by
    obtain ⟨habove, hrest⟩ := List.pairwise_cons.1 hsorted
    rw [List.zip_cons_cons, List.find?_cons]
    by_cases hsecond : context < second.1
    · rw [decide_eq_true (And.intro hfirst hsecond)]
      refine ⟨(first, second), rfl, by simp, by simp, hfirst, hsecond, fun r hr => ?_⟩
      obtain rfl | hr := List.mem_cons.1 hr
      · exact .inl le_rfl
      · obtain rfl | hr := List.mem_cons.1 hr
        · exact .inr le_rfl
        · exact .inr ((List.pairwise_cons.1 hrest).1 r hr).le
    · have hbefore : second.1 < context := lt_of_le_of_ne (not_lt.1 hsecond) (hne second (by simp))
      have hlater : ∃ q ∈ points, context < q.1 := by
        obtain ⟨q, hq, hlt⟩ := hlast
        obtain rfl | hq := List.mem_cons.1 hq
        · exact absurd hlt hsecond
        · exact ⟨q, hq, hlt⟩
      rw [decide_eq_false fun h => hsecond h.2]
      obtain ⟨p, hfind, hn⟩ := find_neighbours hrest hbefore (fun p hp => hne p (List.mem_cons_of_mem _ hp)) hlater
      refine ⟨p, hfind, List.mem_cons_of_mem _ hn.left, List.mem_cons_of_mem _ hn.right, hn.below, hn.above, fun r hr => ?_⟩
      obtain rfl | hr := List.mem_cons.1 hr
      · exact .inl (habove _ hn.left).le
      · exact hn.next r hr

theorem item_nat {α : Type} {l : List α} {n : ℕ} (h : n < l.length) : item l (n : Int) = .ok l[n] := by
  unfold item
  rw [if_neg (by omega), if_neg (by omega), Int.toNat_natCast, List.getElem?_eq_getElem h]
  rfl

theorem item_last {α : Type} {l : List α} (h : 0 < l.length) : item l (-1) = .ok (l.get ⟨l.length - 1, Nat.sub_lt h Nat.one_pos⟩) := by
  unfold item
  have hplace : (-1 + (l.length : Int)).toNat = l.length - 1 := by omega
  dsimp only
  rw [if_pos (show (-1 : Int) < 0 by decide), if_neg (by omega), hplace, List.getElem?_eq_getElem (by omega)]
  rfl

theorem lineResidual_ok {points : List Point} (hsorted : points.Pairwise fun p q => p.1 < q.1) :
    ∃ residual, lineResidual points = .ok residual ∧ 0 ≤ residual := by
  unfold lineResidual
  by_cases hfew : points.length < 3
  · exact ⟨0, if_pos hfew, le_rfl⟩
  · have hlt := List.pairwise_iff_getElem.1 hsorted 0 (points.length - 1) (by omega) (by omega) (by omega)
    have hzero := @item_nat _ points 0 (by omega)
    have hmiddle := @item_nat _ points (points.length / 2) (by omega)
    rw [if_neg hfew, show (0 : Int) = ((0 : ℕ) : Int) from rfl, hzero, hmiddle, item_last (by omega)]
    refine ⟨_, if_neg fun hflat => ?_, abs_nonneg _⟩
    have hflat : points[points.length - 1].1 - points[0].1 = 0 := hflat
    linarith

/-- The row of a context in range. -/
theorem stepAt_ok {points : List Point} (hsorted : points.Pairwise fun p q => p.1 < q.1)
    (hordered : ∀ p ∈ points, p.2.1 ≤ p.2.2) {residual context : ℚ} (hresidual : 0 ≤ residual)
    (hrange : ∃ p ∈ points, ∃ q ∈ points, p.1 ≤ context ∧ context ≤ q.1) :
    ∃ row, stepAt points (.collect points) residual context = .ok row ∧
      (row.1 ≤ row.2 ↔ ∀ p q, Neighbours points context p q → p.2.1 ≤ q.2.2) := by
  have hdistinct : (points.map Prod.fst).Nodup := by
    rw [List.Nodup, List.pairwise_map]
    exact hsorted.imp fun h => h.ne
  unfold stepAt
  cases hget : (Dict.collect points).get? context with
  | some row =>
    have hmem := Dict.get?_eq_some.1 hget
    rw [Dict.items_collect hdistinct] at hmem
    refine ⟨row, rfl, fun _ p q h => ?_, fun _ => hordered _ hmem⟩
    -- nothing lies between neighbours, but the context's own point would
    exact ((h.next _ hmem).elim h.below.not_ge h.above.not_ge).elim
  | none =>
    have hne : ∀ p ∈ points, p.1 ≠ context := by
      intro p hp heq
      rw [Dict.get?_eq_none, Dict.keys, Dict.items_collect hdistinct] at hget
      exact hget (heq ▸ List.mem_map_of_mem hp)
    obtain ⟨p, hp, q, hq, hle, hge⟩ := hrange
    obtain ⟨first, rest, rfl⟩ := List.exists_cons_of_ne_nil (List.ne_nil_of_mem hp)
    have hle' : first.1 ≤ p.1 := by
      obtain rfl | hp := List.mem_cons.1 hp
      · exact le_rfl
      · exact ((List.pairwise_cons.1 hsorted).1 p hp).le
    have hfirst : first.1 < context := lt_of_le_of_ne (hle'.trans hle) (hne first (by simp))
    have hlast : ∃ q ∈ rest, context < q.1 := by
      have hlt := lt_of_le_of_ne hge (hne q hq).symm
      obtain rfl | hq := List.mem_cons.1 hq
      · exact absurd hlt hfirst.not_gt
      · exact ⟨q, hq, hlt⟩
    obtain ⟨between, hfind, hn⟩ := find_neighbours hsorted hfirst (fun p hp => hne p (List.mem_cons_of_mem _ hp)) hlast
    have hbelow := hn.below
    have habove := hn.above
    rw [List.tail_cons, hfind]
    refine ⟨_, rfl, (between_le_iff (hordered _ hn.left) (hordered _ hn.right) ?_ ?_ hresidual).trans ⟨fun h p q h' => ?_, fun h => h _ _ hn⟩⟩
    · exact div_nonneg (by linarith) (by linarith)
    · exact (div_le_one (by linarith)).2 (by linarith)
    · obtain ⟨rfl, rfl⟩ := hn.unique h' hdistinct
      exact h

/-- `_linear_steps` gives every context in range a row, whose ends are in order as its neighbours' are. -/
theorem linearSteps_ok {points : List Point} (hdistinct : (points.map Prod.fst).Nodup) (hordered : ∀ p ∈ points, p.2.1 ≤ p.2.2)
    {contexts : List ℚ} (hrange : ∀ c ∈ contexts, ∃ p ∈ points, ∃ q ∈ points, p.1 ≤ c ∧ c ≤ q.1) :
    ∃ rows residual, linearSteps points contexts = .ok (rows, residual) ∧ List.Forall₂ (fun context row =>
      row.1 ≤ row.2 ↔ ∀ p q, Neighbours points context p q → p.2.1 ≤ q.2.2) contexts rows := by
  have hperm := List.mergeSort_perm points Point.le
  have hsorted := sorted_increasing hdistinct
  obtain ⟨residual, hresidual, hpos⟩ := lineResidual_ok hsorted
  have hrows : ∀ c ∈ contexts, ∃ row, stepAt (points.mergeSort Point.le) (.collect (points.mergeSort Point.le)) residual c = .ok row ∧
      (row.1 ≤ row.2 ↔ ∀ p q, Neighbours points c p q → p.2.1 ≤ q.2.2) := by
    intro c hc
    obtain ⟨p, hp, q, hq, hle⟩ := hrange c hc
    obtain ⟨row, hrow, hiff⟩ := stepAt_ok hsorted (fun p hp => hordered p (hperm.mem_iff.1 hp)) hpos
      ⟨p, hperm.mem_iff.2 hp, q, hperm.mem_iff.2 hq, hle⟩
    exact ⟨row, hrow, hiff.trans ⟨fun h p q hn => h p q (hn.perm hperm.symm), fun h p q hn => h p q (hn.perm hperm)⟩⟩
  obtain ⟨rows, hrun, hall⟩ := mapM_rows hrows
  refine ⟨rows, residual, ?_, hall⟩
  unfold linearSteps
  simp only [hresidual, hrun, bind, Except.bind]
  rfl

/-! ## Both orders -/

/-- Every interval of the chunks has its ends in order. -/
def ChunksOrdered (chunks : List (List Stage)) : Prop :=
  ∀ stages ∈ chunks, ∀ row ∈ stages, row.body.1 ≤ row.body.2 ∧ row.exit.1 ≤ row.exit.2

def GapsOrdered (gaps : Dict Int Interval) : Prop := ∀ stage gap, gaps.get? stage = some gap → gap.1 ≤ gap.2

theorem ChunksOrdered.le {chunks : List (List Stage)} (h : ChunksOrdered chunks) : ChunksLe 0 1 chunks chunks :=
  List.forall₂_same.2 fun stages hs => List.forall₂_same.2 fun row hr => h stages hs row hr

theorem GapsOrdered.le {gaps : Dict Int Interval} (h : GapsOrdered gaps) : GapsLe 0 1 gaps gaps := fun stage => by
  have hstage := h stage
  cases hgap : gaps.get? stage with
  | none => exact .none
  | some gap => exact .some (hstage gap hgap)

/-- **A row's ends are in order just as its neighbours' are, and a chain's ends are, and grow with every interval's.** -/
theorem composed_bounds_ordered :
    (∀ points : List Point, (points.map Prod.fst).Nodup → (∀ p ∈ points, p.2.1 ≤ p.2.2) →
      ∀ contexts : List ℚ, (∀ c ∈ contexts, ∃ p ∈ points, ∃ q ∈ points, p.1 ≤ c ∧ c ≤ q.1) →
      ∃ rows residual, linearSteps points contexts = .ok (rows, residual) ∧ List.Forall₂ (fun context row =>
        row.1 ≤ row.2 ↔ ∀ p q, Neighbours points context p q → p.2.1 ≤ q.2.2) contexts rows) ∧
    (∀ chunks waits gaps, ChunksOrdered chunks → GapsOrdered gaps →
      InStep (· ≤ ·) (chainedChunks chunks waits gaps 0) (chainedChunks chunks waits gaps 1)) ∧
    ∀ chunks chunks' waits gaps gaps' bound, ChunksLe bound bound chunks chunks' → GapsLe bound bound gaps gaps' →
      InStep (· ≤ ·) (chainedChunks chunks waits gaps bound) (chainedChunks chunks' waits gaps' bound) :=
  ⟨fun _ hdistinct hordered _ hrange => linearSteps_ok hdistinct hordered hrange,
    fun _ _ _ hchunks hgaps => chainedChunks_inStep hchunks.le hgaps.le,
    fun _ _ _ _ _ _ hchunks hgaps => chainedChunks_inStep hchunks hgaps⟩

/-- Two stages, the second chunk behind the first. -/
theorem composed_bounds_twoChunks : chainedChunks [[⟨(1, 2), (0, 1)⟩], [⟨(1, 3), (0, 0)⟩]] [[0]] (.collect [(0, (1, 1))]) 0 = .ok 3 ∧
    InStep (· ≤ ·) (chainedChunks [[⟨(1, 2), (0, 1)⟩], [⟨(1, 3), (0, 0)⟩]] [[0]] (.collect [(0, (1, 1))]) 0)
      (chainedChunks [[⟨(1, 2), (0, 1)⟩], [⟨(1, 3), (0, 0)⟩]] [[0]] (.collect [(0, (1, 1))]) 1) := by
  refine ⟨by decide +kernel, composed_bounds_ordered.2.1 _ _ _ ?_ ?_⟩
  · intro stages hstages row hrow
    fin_cases hstages <;> fin_cases hrow <;> norm_num
  · intro stage gap hgap
    have hmem := Dict.get?_eq_some.1 hgap
    rw [Dict.items_collect (by simp)] at hmem
    fin_cases hmem
    exact le_rfl

/-- A step that halves from one sampled context to the next. -/
theorem composed_bounds_halved : linearSteps [(0, (10, 10)), (2, (5, 5))] [1] = .ok ([(10, 5)], 0) ∧
    ¬∀ points : List Point, (points.map Prod.fst).Nodup → (∀ p ∈ points, p.2.1 ≤ p.2.2) →
      ∀ contexts : List ℚ, (∀ c ∈ contexts, ∃ p ∈ points, ∃ q ∈ points, p.1 ≤ c ∧ c ≤ q.1) →
      ∀ rows residual, linearSteps points contexts = .ok (rows, residual) → ∀ row ∈ rows, row.1 ≤ row.2 := by
  have hrun : linearSteps [(0, (10, 10)), (2, (5, 5))] [1] = .ok ([(10, 5)], 0) := by
    unfold linearSteps
    rw [List.mergeSort_of_pairwise (by decide +kernel)]
    decide +kernel
  refine ⟨hrun, fun h => ?_⟩
  have := h _ (by simp) (by simp) [1] (by norm_num) _ _ hrun (10, 5) (by simp)
  norm_num at this

end HeteroSim.Prefill
