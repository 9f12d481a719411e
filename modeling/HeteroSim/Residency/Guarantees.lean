/-
What callers may rely on, of a manager in any state that calls lead to: its
own check passes, a call that raises changes nothing, and what makes room goes
in the order of the last accesses, whole units of what nothing protects and no
unit too many. The last accesses are read off the log.
-/
import HeteroSim.Residency.History

namespace HeteroSim.Residency

variable {s t u : Manager} {a b : Allocation} {r : Resolved}

/-! ## Bytes -/

/-- A byte of an allocation. -/
abbrev Byte := String × Int

/-- The bytes of some pieces of allocations. -/
def spans (l : List (String × Gap)) : Set Byte := {p | ∃ q ∈ l, q.1 = p.1 ∧ q.2.lo ≤ p.2 ∧ p.2 < q.2.hi}

theorem spans_cons (q : String × Gap) (l : List (String × Gap)) :
    spans (q :: l) = (fun x => (q.1, x)) '' Set.Ico q.2.lo q.2.hi ∪ spans l := by
  ext p
  simp only [spans, Set.mem_ofPred_eq, List.mem_cons, or_and_right, exists_or, exists_eq_left, Set.mem_union, Set.mem_image, Set.mem_Ico]
  refine or_congr_left ⟨fun h => ⟨p.2, h.2, Prod.ext h.1 rfl⟩, fun h => ?_⟩
  obtain ⟨x, hx, rfl⟩ := h
  exact ⟨rfl, hx⟩

/-- **Pieces that have nothing in common have as many bytes as they are long.** -/
theorem ncard_spans : ∀ {l : List (String × Gap)}, (∀ q ∈ l, q.2.lo ≤ q.2.hi) →
    l.Pairwise (fun q k => q.1 = k.1 → ∀ x, q.2.lo ≤ x → x < q.2.hi → ¬(k.2.lo ≤ x ∧ x < k.2.hi)) →
    (spans l).Finite ∧ ((spans l).ncard : Int) = (l.map fun q => q.2.hi - q.2.lo).sum
  | [], _, _ => by
    have hnone : spans [] = ∅ := by simp [spans]
    rw [hnone]
    exact ⟨Set.finite_empty, by simp⟩
  | q :: l, hp, hd => by
    obtain ⟨hq, hd⟩ := List.pairwise_cons.1 hd
    obtain ⟨hfin, hcard⟩ := ncard_spans (fun k hk => hp k (List.mem_cons_of_mem q hk)) hd
    have hle := hp q List.mem_cons_self
    have hfirst : ((fun x => (q.1, x)) '' Set.Ico q.2.lo q.2.hi).Finite := (Set.finite_Ico _ _).image _
    have hone : ((fun x => (q.1, x)) '' Set.Ico q.2.lo q.2.hi).ncard = (q.2.hi - q.2.lo).toNat := by
      rw [Set.ncard_image_of_injective _ (Prod.mk_right_injective q.1), ← Finset.coe_Ico, Set.ncard_coe_finset, Int.card_Ico]
    have hdisj : Disjoint ((fun x => (q.1, x)) '' Set.Ico q.2.lo q.2.hi) (spans l) := by
      refine Set.disjoint_left.2 fun p hin hrest => ?_
      obtain ⟨x, ⟨h1, h2⟩, rfl⟩ := hin
      obtain ⟨k, hk, hid, hx⟩ := hrest
      exact hq k hk hid.symm x h1 h2 hx
    rw [spans_cons, Set.ncard_union_eq hdisj hfirst hfin, hone, List.map_cons, List.sum_cons, Nat.cast_add, hcard,
      Int.toNat_of_nonneg (by omega)]
    exact ⟨hfirst.union hfin, rfl⟩

/-- What is resident before and not after. -/
def Gone (s t : Manager) : Set Byte := {p | Holds (s.residentOf p.1) p.2 ∧ ¬Holds (t.residentOf p.1) p.2}

/-- The bytes that may be evicted. -/
def Manager.eligible (s : Manager) (protect : Option String) (ranges : List Gap) : Set Byte :=
  {p | ∃ a, s.allocations.get? p.1 = some a ∧ s.Eligible protect ranges a p.2}

/-- The pieces picked, each with its owner. -/
def piecesOf (ps : List (Candidate × Gap)) : List (String × Gap) := ps.map fun p => (p.1.ownerId, p.2)

theorem mem_spans_piecesOf {ps : List (Candidate × Gap)} {p : Byte} :
    p ∈ spans (piecesOf ps) ↔ ∃ q ∈ ps, q.1.ownerId = p.1 ∧ q.2.lo ≤ p.2 ∧ p.2 < q.2.hi := by
  simp only [spans, piecesOf, Set.mem_ofPred_eq, List.mem_map]
  constructor
  · rintro ⟨_, ⟨q, hq, rfl⟩, h⟩
    exact ⟨q, hq, h⟩
  · rintro ⟨q, hq, h⟩
    exact ⟨_, ⟨q, hq, rfl⟩, h⟩

theorem ncard_piecesOf {ps : List (Candidate × Gap)} (hp : ∀ p ∈ ps, p.2.lo ≤ p.2.hi)
    (hd : ps.Pairwise fun p q => p.1.ownerId = q.1.ownerId → ∀ x, p.2.lo ≤ x → x < p.2.hi → ¬(q.2.lo ≤ x ∧ x < q.2.hi)) :
    (spans (piecesOf ps)).Finite ∧ ((spans (piecesOf ps)).ncard : Int) = bytesOf ps := by
  have hle : ∀ q ∈ piecesOf ps, q.2.lo ≤ q.2.hi := by
    intro q hq
    obtain ⟨p, hmem, rfl⟩ := List.mem_map.1 hq
    exact hp p hmem
  obtain ⟨hfin, hcard⟩ := ncard_spans hle (List.pairwise_map.2 hd)
  refine ⟨hfin, hcard.trans ?_⟩
  rw [piecesOf, List.map_map, bytesOf]
  exact congrArg List.sum (List.map_congr_left fun p _ => rfl)

variable {protect : Option String} {ranges : List Gap} {n : Int}

theorem Manager.Sound.chosen_disjoint (hs : s.Sound) (hp : Protects s protect ranges) :
    (s.chosen protect ranges n).Pairwise fun p q => p.1.ownerId = q.1.ownerId → ∀ x, p.2.lo ≤ x → x < p.2.hi → ¬(q.2.lo ≤ x ∧ x < q.2.hi) := by
  have hpicked := picks_picked (hs.sorted_whole hp) (n := n)
  refine (picks_pairwise (hs.sorted_whole hp) (hs.sorted_disjoint hp)).imp_of_mem fun hpm hqm hdisj hid x h1 h2 h3 => ?_
  have h := (hpicked _ hpm).2
  have h' := (hpicked _ hqm).2
  exact hdisj hid x (h.lo ▸ h1) (h2.trans_le h.hi) ⟨h'.lo ▸ h3.1, h3.2.trans_le h'.hi⟩

/-- What is chosen, counted. -/
theorem Manager.Sound.ncard_chosen (hs : s.Sound) (hp : Protects s protect ranges) :
    (spans (piecesOf (s.chosen protect ranges n))).Finite ∧
      ((spans (piecesOf (s.chosen protect ranges n))).ncard : Int) = bytesOf (s.chosen protect ranges n) :=
  ncard_piecesOf (fun p hmem => (picks_picked (hs.sorted_whole hp) p hmem).2.proper.le) (hs.chosen_disjoint hp)

/-- All that may be evicted, counted. -/
theorem Manager.Sound.ncard_eligible (hs : s.Sound) (hp : Protects s protect ranges) :
    s.eligible protect ranges = spans (piecesOf ((s.sorted protect ranges).map fun c => (c, c.range))) ∧
      ((s.eligible protect ranges).ncard : Int) = bytesOf ((s.sorted protect ranges).map fun c => (c, c.range)) := by
  have heq : s.eligible protect ranges = spans (piecesOf ((s.sorted protect ranges).map fun c => (c, c.range))) := by
    ext p
    rw [mem_spans_piecesOf]
    constructor
    · rintro ⟨a, ha, hx⟩
      obtain ⟨hid, -, hsound⟩ := hs.owners _ a ha
      obtain ⟨n, hn⟩ := holds_ranges.1 ((hsound.covered _).2 hx.resident)
      obtain ⟨c, hc, hc1, hc2, -⟩ := hs.found_covers hp (hid ▸ ha) hx hn
      exact ⟨(c, c.range), List.mem_map_of_mem (mem_sorted.2 hc), hc1.trans hid, hc2⟩
    · rintro ⟨q, hq, hid, h1, h2⟩
      obtain ⟨c, hc, rfl⟩ := List.mem_map.1 hq
      obtain ⟨a, -, ha, -, -, hbytes⟩ := hs.found_spec hp (mem_sorted.1 hc)
      exact ⟨a, hid ▸ ha, (hbytes p.2 h1 h2).2⟩
  refine ⟨heq, heq ▸ (ncard_piecesOf (fun p hmem => ?_) (List.pairwise_map.2 (hs.sorted_disjoint hp))).2⟩
  obtain ⟨c, hc, rfl⟩ := List.mem_map.1 hmem
  exact (hs.sorted_proper hp c hc).le

/-- **There is too little to choose from exactly when too little may be evicted.** -/
theorem Manager.Sound.chosen_less_iff (hs : s.Sound) (hp : Protects s protect ranges) :
    bytesOf (s.chosen protect ranges n) < n ↔ ((s.eligible protect ranges).ncard : Int) < n := by
  rw [(hs.ncard_eligible hp).2, ← not_le, ← not_le]
  exact not_congr (picks_enough_iff (hs.sorted_whole hp))

/-! ## A manager in use -/

theorem Used.calls : ∀ {s : Manager}, Used s → ∀ cs : List Call, Used (cs.foldl (fun s c => after c.run s) s)
  | _, h, [] => h
  | s, h, c :: cs =>
    have hstep : CallStep s c (after c.run s) := rfl
    Used.calls (Reached.run h (.single hstep)) cs

def twoPages : PhysicalPool := ⟨"hbm", 4, 2, 0, 0, by decide, by decide⟩

def spilling (allocationId : String) (sizeBytes residentBytes : Int) (dirty : Bool) : Registration :=
  { allocationId := allocationId
    sizeBytes := sizeBytes
    kind := "cache"
    backing := some "ssd"
    committedBytes := none
    residentBytes := residentBytes
    dirty := dirty
    evictable := none
    pinned := false
    lifecycle := .persistent
    readOnly := none
    residencyGranuleBytes := none }

/-- One dirty allocation fills the pool; half of it was leased, the other half is; a second one waits outside. -/
def inUse : Manager :=
  [Call.register (spilling "old" 4 4 true), .acquireLease "first" "old" "reader" 0 (some 1), .releaseLease "first",
    .acquireLease "second" "old" "reader" 2 none, .register (spilling "new" 2 0 false)].foldl (fun s c => after c.run s)
    ⟨twoPages, .empty, .empty, 0, 0, 0, [], ⟨0, 0, 0, 0⟩, .empty, .empty, 0, []⟩

theorem inUse_used : Used inUse := Used.calls (.of_init ⟨twoPages, rfl⟩) _

/-- What a computation returns, where it does. -/
def answerOf {ε σ α : Type} : EStateM.Result ε σ α → Option α
  | .ok a _ => some a
  | .error _ _ => none

theorem exists_of_answer {ε σ α : Type} {x : EStateM.Result ε σ α} (h : (answerOf x).isSome = true) : ∃ a t, x = .ok a t := by
  cases x with
  | ok a t => exact ⟨a, t, rfl⟩
  | error e t => cases h

def readNew : MemoryAccess := ⟨"new", .read, 0, none⟩

/-- After an access to the second, for which the half not leased went. -/
def afterRead : Manager := after (Call.access readNew).run inUse

theorem afterRead_used : Used afterRead := inUse_used.calls [.access readNew]

/-! ## Room made -/

/-- What has gone where so much was needed: bytes that might go, no byte accessed after one that stayed and might have gone, whole
units, and no unit too many. -/
structure LeastRecent (s t : Manager) (protect : Option String) (ranges : List Gap) (need : Int) : Prop where
  eligible : Gone s t ⊆ s.eligible protect ranges
  enough : need ≤ (Gone s t).ncard
  oldest : ∀ p ∈ Gone s t, ∀ q ∈ s.eligible protect ranges, q ∉ Gone s t →
    ∃ m n, lastAccess p.1 p.2 s.events = some m ∧ lastAccess q.1 q.2 s.events = some n ∧ m ≤ n
  whole : ∀ id a, s.allocations.get? id = some a → ∀ x y, (id, x) ∈ Gone s t → y < a.committedBytes →
    a.unitStart y = a.unitStart x → (id, y) ∈ Gone s t
  nothing : need = 0 → Gone s t = ∅
  last : 0 < need → ∃ id a x, s.allocations.get? id = some a ∧ (id, x) ∈ Gone s t ∧
    ((Gone s t).ncard : Int) - (a.unitStop x - a.unitStart x) < need ∧
    ∀ p ∈ Gone s t, ∃ m n, lastAccess p.1 p.2 s.events = some m ∧ lastAccess id x s.events = some n ∧ m ≤ n

theorem Candidate.sequence_le {c d : Candidate} (h : c.key ≤ d.key) : c.sequence ≤ d.sequence := by
  obtain hlt | heq := Prod.Lex.le_iff.1 h
  · exact hlt.le
  · exact heq.1.le

/-- What is left after room is made. -/
theorem Made.views {additional : Int} (h : Made s t protect ranges additional) (hs : s.Sound) (id : String) (x : Int) :
    (Holds (t.residentOf id) x ↔ Holds (s.residentOf id) x ∧ ¬Holds (s.share protect ranges (s.need additional) id) x) ∧
      (Holds (t.dirtyOf id) x ↔ Holds (s.dirtyOf id) x ∧ ¬Holds (s.share protect ranges (s.need additional) id) x) := by
  cases ha : s.allocations.get? id with
  | none =>
    unfold Manager.residentOf Manager.dirtyOf
    rw [ha, h.others id ha]
    simp only [Option.elim_none, holds_nil, false_and, and_self]
  | some a =>
    obtain ⟨rfl, -, -⟩ := hs.owners id a ha
    obtain ⟨b, hb, hleft⟩ := h.left a ha
    obtain ⟨hres, hdirt, -⟩ := views_of_get? ha
    obtain ⟨hres', hdirt', -⟩ := views_of_get? hb
    rw [hres, hdirt, hres', hdirt']
    exact ⟨hleft.resident x, hleft.dirtied x⟩

/-- What has gone is what was chosen, whatever comes in its place. -/
theorem Made.gone {additional : Int} (h : Made s t protect ranges additional) (hs : s.Sound) (hp : Protects s protect ranges)
    (k : String) (new : List Gap) (hu : ∀ id x, Holds (u.residentOf id) x ↔ Holds (t.residentOf id) x ∨ id = k ∧ Holds new x)
    (hnew : ∀ x, Holds new x → ¬Holds (s.share protect ranges (s.need additional) k) x) :
    Gone s u = spans (piecesOf (s.chosen protect ranges (s.need additional))) := by
  ext p
  rw [mem_spans_piecesOf, ← holds_share]
  constructor
  · rintro ⟨hin, hout⟩
    rw [hu, not_or, (h.views hs _ _).1] at hout
    exact not_not.1 fun hnot => hout.1 ⟨hin, hnot⟩
  · intro hshare
    refine ⟨?_, fun hout => ?_⟩
    · obtain ⟨q, hq, hid, h1, h2⟩ := holds_share.1 hshare
      obtain ⟨a, ha, hpresent, -, -, -, -, hbytes⟩ := hs.chosen_spec hp hq
      rw [← hid, ← ha, (views_of_get? hpresent).1]
      exact (hbytes p.2 h1 h2).2.resident
    · obtain hold | ⟨hk, hin⟩ := (hu p.1 p.2).1 hout
      · exact ((h.views hs p.1 p.2).1.1 hold).2 hshare
      · exact hnew p.2 hin (hk ▸ hshare)

/-- The end of a unit. -/
theorem Allocation.Sound.unitStop_eq {clock : ℕ} (h : a.Sound clock) {hi : Int} (hhi : a.Unit hi) : a.unitStop (hi - 1) = hi := by
  have hbounds := h.unit_bounds (hi - 1)
  unfold Allocation.unitStop
  obtain ⟨⟨-, hle⟩, heq | hmod⟩ := hhi
  · omega
  · -- the end starts a unit of its own
    have hself : a.unitStart hi = hi := Int.ediv_mul_cancel (Int.dvd_of_emod_eq_zero hmod)
    have hnext := (h.lt_unit_iff (hi - 1) hi).1
    omega

/-- Ranges of units have the units of their bytes. -/
theorem Allocation.Sound.unit_holds {clock : ℕ} (h : a.Sound clock) {l : List Gap} (hends : Ends a.Unit l) {x y : Int} (hx : Holds l x)
    (hy : y < a.committedBytes) (hxy : a.unitStart y = a.unitStart x) : Holds l y := by
  obtain ⟨g, hg, hlo, hhi⟩ := hx
  refine ⟨g, hg, ?_, ?_⟩
  · obtain ⟨⟨⟨-, hle⟩, heq | hmod⟩, ⟨⟨-, hend⟩, -⟩⟩ := hends g hg
    · omega
    · have hself : a.unitStart g.lo = g.lo := Int.ediv_mul_cancel (Int.dvd_of_emod_eq_zero hmod)
      have := (h.unit_le_iff g.lo x).1 (hself.trans_le hlo)
      have := (h.unit_bounds y).1
      omega
  · obtain ⟨-, ⟨⟨-, hend⟩, heq | hmod⟩⟩ := hends g hg
    · omega
    · have hself : a.unitStart g.hi = g.hi := Int.ediv_mul_cancel (Int.dvd_of_emod_eq_zero hmod)
      have hpast := (h.unit_le_iff g.hi y).1
      have := (h.unit_bounds x).1
      omega

/-- **Room is made of the least recently accessed.** -/
theorem Told.leastRecent (h : Told s) (hs : s.Sound) (hp : Protects s protect ranges)
    (henough : n ≤ bytesOf (s.chosen protect ranges n)) (hgone : Gone s t = spans (piecesOf (s.chosen protect ranges n))) :
    LeastRecent s t protect ranges n := by
  have hmem {p : Byte} : p ∈ Gone s t ↔ ∃ q ∈ s.chosen protect ranges n, q.1.ownerId = p.1 ∧ q.2.lo ≤ p.2 ∧ p.2 < q.2.hi := by
    rw [hgone, mem_spans_piecesOf]
  have hcard : ((Gone s t).ncard : Int) = bytesOf (s.chosen protect ranges n) := by rw [hgone, (hs.ncard_chosen hp).2]
  have hlogged {id : String} {a : Allocation} {x : Int} {m : ℕ} (ha : s.allocations.get? id = some a)
      (hm : Stamped a.residentRecencyRanges x m) : lastAccess id x s.events = some m := by
    rw [← (views_of_get? ha).2.2] at hm
    exact ((h.stamped id x m).1 hm).2
  have hpick {p : Byte} {q : Candidate × Gap} (hq : q ∈ s.chosen protect ranges n) (hid : q.1.ownerId = p.1) (h1 : q.2.lo ≤ p.2)
      (h2 : p.2 < q.2.hi) : p ∈ s.eligible protect ranges ∧ lastAccess p.1 p.2 s.events = some q.1.sequence := by
    obtain ⟨a, ha, hpresent, -, -, -, -, hbytes⟩ := hs.chosen_spec hp hq
    obtain ⟨hstamped, hfree⟩ := hbytes p.2 h1 h2
    rw [ha, hid] at hpresent
    exact ⟨⟨a, hpresent, hfree⟩, hlogged hpresent hstamped⟩
  refine ⟨fun p hin => ?_, hcard ▸ henough, fun p hin q hq hout => ?_, fun id a ha x y hin hhi hxy => ?_, fun hzero => ?_, fun hpos => ?_⟩
  · obtain ⟨q, hq, hid, h1, h2⟩ := hmem.1 hin
    exact (hpick hq hid h1 h2).1
  · obtain ⟨k, hk, hid, h1, h2⟩ := hmem.1 hin
    obtain ⟨b, hb, hfree⟩ := hq
    obtain ⟨hbid, -, hbsound⟩ := hs.owners _ b hb
    obtain ⟨m, hm⟩ := holds_ranges.1 ((hbsound.covered _).2 hfree.resident)
    obtain ⟨c, hc, hcid, hcx, hseq⟩ := hs.found_covers hp (hbid ▸ hb) hfree hm
    refine ⟨k.1.sequence, m, (hpick hk hid h1 h2).2, hlogged hb hm, ?_⟩
    obtain hle | hall := picks_least (hs.sorted_whole hp) (sorted_pairwise s protect ranges) k hk c (mem_sorted.2 hc)
    · exact hseq ▸ Candidate.sequence_le hle
    · exact absurd (hmem.2 ⟨(c, c.range), hall, hcid.trans hbid, hcx⟩) hout
  · obtain ⟨q, hq, hid, h1, h2⟩ := hmem.1 hin
    obtain ⟨b, hb, hpresent, -, hunitlo, hunithi, -, -⟩ := hs.chosen_spec hp hq
    rw [hb, hid, ha] at hpresent
    obtain rfl := Option.some.inj hpresent
    obtain ⟨-, -, hsound⟩ := hs.owners _ a ha
    have hends : Ends a.Unit [q.2] := fun g hg => List.mem_singleton.1 hg ▸ ⟨hunitlo, hunithi⟩
    obtain ⟨g, hg, hy⟩ := hsound.unit_holds hends ⟨q.2, List.mem_cons_self, h1, h2⟩ hhi hxy
    exact hmem.2 ⟨q, hq, hid, List.mem_singleton.1 hg ▸ hy⟩
  · rw [hgone, hzero, Manager.chosen, picks_of_le le_rfl]
    exact Set.eq_empty_of_forall_notMem fun p hin => by
      obtain ⟨q, hq, -⟩ := mem_spans_piecesOf.1 hin
      cases hq
  · obtain ⟨init, p, heq, h1, h2, h3⟩ := picks_last (hs.sorted_whole hp) hpos henough
    have hlast : p ∈ s.chosen protect ranges n := by
      rw [Manager.chosen, heq]
      exact List.mem_append_right _ List.mem_cons_self
    obtain ⟨a, ha, hpresent, hgranule, -, hunit, hproper, hbytes⟩ := hs.chosen_spec hp hlast
    obtain ⟨-, -, hsound⟩ := hs.owners _ a hpresent
    have hin : (a.allocationId, p.2.hi - 1) ∈ Gone s t := hmem.2 ⟨p, hlast, ha.symm, by omega, by omega⟩
    refine ⟨a.allocationId, a, p.2.hi - 1, hpresent, hin, ?_, fun q hq => ?_⟩
    · rw [hsound.unitStop_eq hunit, hcard]
      rw [hgranule] at h3
      exact h3
    · obtain ⟨k, hk, hid, hk1, hk2⟩ := hmem.1 hq
      refine ⟨k.1.sequence, p.1.sequence, (hpick hk hid hk1 hk2).2,
        (hpick (p := (a.allocationId, p.2.hi - 1)) hlast ha.symm (by omega) (by omega)).2, ?_⟩
      have hsorted := picks_pairwise (n := n) (hs.sorted_whole hp) (sorted_pairwise s protect ranges)
      rw [heq] at hsorted
      rw [Manager.chosen, heq] at hk
      obtain hk | hk := List.mem_append.1 hk
      · exact Candidate.sequence_le ((List.pairwise_append.1 hsorted).2.2 k hk p List.mem_cons_self)
      · exact (List.mem_singleton.1 hk) ▸ le_rfl

/-- What an access or a registration needs room for, with the units it protects, once it is not refused for what it asks. -/
inductive Wants (s : Manager) : Call → Int → Option String → List Gap → Prop
  | access {x : MemoryAccess} {r : Resolved} (h : Admitted s x r) :
      Wants s (.access x) (totalLength r.missing) (some r.owner.allocationId) r.ranges
  | register {q : Registration} {o : Allocation} {resident : Int} (h : s.checkRegistration q = .ok (o, resident)) :
      Wants s (.register q) (totalLength (o.initial resident)) none []

theorem discard_ok {ε σ α : Type} {m : EStateM ε σ α} {s t : σ} {a : α} (h : m s = .ok a t) : (discard m) s = .ok () t := by
  show EStateM.map _ m s = _
  rw [EStateM.map, h]

theorem discard_error {ε σ α : Type} {m : EStateM ε σ α} {s t : σ} {e : ε} (h : m s = .error e t) : (discard m) s = .error e t := by
  show EStateM.map _ m s = _
  rw [EStateM.map, h]

theorem foldl_add (ms : List Migration) (totals : MigrationTotals) :
    (ms.foldl MigrationTotals.add totals).pageInBytes = totals.pageInBytes + (ms.map Migration.pageInBytes).sum ∧
      (ms.foldl MigrationTotals.add totals).pageOutBytes = totals.pageOutBytes + (ms.map Migration.pageOutBytes).sum := by
  induction ms generalizing totals with
  | nil => exact ⟨(Int.add_zero _).symm, (Int.add_zero _).symm⟩
  | cons m ms ih =>
    obtain ⟨hin, hout⟩ := ih (totals.add m)
    rw [List.foldl_cons, hin, hout, List.map_cons, List.map_cons, List.sum_cons, List.sum_cons]
    exact ⟨Int.add_assoc _ _ _, Int.add_assoc _ _ _⟩

/-- Evictions say nothing of what came in, nor of when it was asked for. -/
theorem Evictions.silent (h : Evictions s t) : summed registeredBytes t.events = summed registeredBytes s.events ∧
    summed pagedInBytes t.events = summed pagedInBytes s.events ∧ summed allocatedBytes t.events = summed allocatedBytes s.events ∧
    summed releasedBytes t.events = summed releasedBytes s.events ∧ ∀ id x, lastAccess id x t.events = lastAccess id x s.events := by
  induction h with
  | refl => exact ⟨rfl, rfl, rfl, rfl, fun _ _ => rfl⟩
  | tail _ hstep ih =>
    obtain ⟨a, selected, -, rfl⟩ := hstep
    obtain ⟨h1, h2, h3, h4, h5⟩ := ih
    exact ⟨(Int.zero_add _).trans h1, (Int.zero_add _).trans h2, (Int.zero_add _).trans h3, (Int.zero_add _).trans h4, h5⟩

section

/-! ### An access in a manager with room made -/

variable (h : Roomy s t r b (s.share (some r.owner.allocationId) r.ranges (s.need (totalLength r.missing)) r.owner.allocationId))
  (hmade : Made s t (some r.owner.allocationId) r.ranges (totalLength r.missing)) (hs : s.Sound) {x : MemoryAccess} (hx : Admitted s x r)

include hmade hs hx

theorem Roomy.gone :
    Gone s (h.result x.operation) =
      spans (piecesOf (s.chosen (some r.owner.allocationId) r.ranges (s.need (totalLength r.missing)))) := by
  have hr := hs.resolves hx.resolved
  have htouching := h.touching hs hx
  have hviews := insert_views htouching.replaced.allocations
  obtain ⟨hid, -, -⟩ := h.same
  refine hmade.gone hs (hr.protects hs) r.owner.allocationId r.ranges (fun id y => ?_) fun y hy =>
    hs.share_unprotected (hr.protects hs) hy
  rw [Roomy.result, (hviews id).1, hid]
  split
  · next heq =>
    rw [heq, ← hid, (views_of_get? h.present).1, htouching.touched.resident]
    simp only [true_and]
  · next hne => simp only [hne, false_and, or_false]

/-- What an access leaves resident and dirty. -/
theorem Roomy.leaves (id : String) (y : Int) :
    (Holds ((h.result x.operation).residentOf id) y ↔
      id = r.owner.allocationId ∧ Holds r.ranges y ∨ Holds (s.residentOf id) y ∧ (id, y) ∉ Gone s (h.result x.operation)) ∧
    (Holds ((h.result x.operation).dirtyOf id) y ↔ (id = r.owner.allocationId ∧ x.operation = .write ∧ Holds r.ranges y) ∨
      Holds (s.dirtyOf id) y ∧ (id, y) ∉ Gone s (h.result x.operation)) := by
  have htouching := h.touching hs hx
  have hviews := insert_views (t := h.result x.operation) htouching.replaced.allocations
  obtain ⟨hres, hdirt, -⟩ := views_of_get? h.present
  obtain ⟨hid, -, -⟩ := h.same
  rw [h.gone hmade hs hx, mem_spans_piecesOf, ← holds_share, ← (hmade.views hs _ _).1, ← (hmade.views hs _ _).2, (hviews id).1, (hviews id).2.1, hid]
  split
  · next heq =>
    rw [heq, ← hid, hres, hdirt, htouching.touched.resident, htouching.touched.dirtied, or_comm, or_comm (b := Holds b.dirtyRanges y)]
    simp only [true_and, and_self]
  · next hne => simp only [hne, false_and, false_or, and_self]

/-- What an access records and counts. -/
theorem Roomy.counts (hu : Used s) :
    (h.result x.operation).migrations = s.migrations ++ (h.answer x).migrations ∧
      (h.answer x).pageInBytes = totalLength (r.pagedIn x.operation) ∧
      ((h.answer x).migrations.map Migration.pageOutBytes).sum = ((Gone s (h.result x.operation)).ncard : Int) ∧
      (h.result x.operation).pool.residentBytes = s.pool.residentBytes - (Gone s (h.result x.operation)).ncard + totalLength r.missing := by
  have hr := hs.resolves hx.resolved
  have htouching := h.touching hs hx
  have hreplaced : Replaced t (h.result x.operation) b _ := htouching.replaced
  have hrec := hu.recorded
  have hrec' : Recorded (h.result x.operation) := (hrec.changes hs h.steps.changes).change (h.steps.sound hs) (.access htouching)
  obtain ⟨hregistered, hpaged, hallocated, hreleased, -⟩ := h.steps.silent
  obtain ⟨ms, hms⟩ := h.steps.kept.migrations
  -- the migrations of the result are those recorded since
  have hmigrations : (h.result x.operation).migrations = s.migrations ++ (h.answer x).migrations := by
    have hdrop : (h.result x.operation).migrations =
        s.migrations ++ (ms ++ t.counted b .pageIn (totalLength (r.pagedIn x.operation)) b.backing t.pool.componentId []) := by
      rw [← List.append_assoc, ← hms]
      rfl
    rw [Roomy.answer, hdrop, List.drop_left]
  have hgone : ((Gone s (h.result x.operation)).ncard : Int) =
      bytesOf (s.chosen (some r.owner.allocationId) r.ranges (s.need (totalLength r.missing))) := by
    rw [h.gone hmade hs hx, (hs.ncard_chosen (hr.protects hs)).2]
  have hpool := hreplaced.pool
  rw [htouching.touched.bytes, hmade.freed, ← hgone] at hpool
  obtain ⟨hsumIn, hsumOut⟩ := foldl_add (h.answer x).migrations s.migrationTotals
  have htotals := hrec'.balanced.totals
  rw [hmigrations, List.foldl_append, ← hrec.balanced.totals] at htotals
  rw [← htotals] at hsumIn hsumOut
  have hevents : (h.result x.operation).events = .accessed b.allocationId x.operation r.offset (r.offset + r.size) r.ranges r.missing
      (r.pagedIn x.operation) (t.accessSequence + 1) :: t.events := rfl
  have hlogIn : summed pagedInBytes (h.result x.operation).events = totalLength (r.pagedIn x.operation) + summed pagedInBytes s.events := by
    rw [hevents, summed_cons, hpaged, pagedInBytes]
  have hlogAlloc : summed allocatedBytes (h.result x.operation).events =
      totalLength r.missing - totalLength (r.pagedIn x.operation) + summed allocatedBytes s.events := by
    rw [hevents, summed_cons, hallocated, allocatedBytes]
  have hlogReg : summed registeredBytes (h.result x.operation).events = summed registeredBytes s.events := by
    rw [hevents, summed_cons, hregistered]
    exact Int.zero_add _
  have hlogRel : summed releasedBytes (h.result x.operation).events = summed releasedBytes s.events := by
    rw [hevents, summed_cons, hreleased]
    exact Int.zero_add _
  have h1 := hrec.balanced
  have h2 := hrec'.balanced
  have := h1.pool
  have := h2.pool
  have := h1.pageIn
  have := h2.pageIn
  have := h1.pageOut
  have := h2.pageOut
  have := h1.clean
  have := h2.clean
  have := h1.dirty
  have := h2.dirty
  refine ⟨hmigrations, ?_, by omega, by omega⟩
  show ((h.answer x).migrations.map Migration.pageInBytes).sum = _
  omega

end

/-- A registration in a manager with room made. -/
theorem Made.registered {o : Allocation} {resident : Int} (hmade : Made s t none [] (totalLength (o.initial resident))) (hs : s.Sound)
    (ho : Registrable s o resident) (dirty : Bool) : Gone s (t.entered o dirty (o.initial resident)) =
      spans (piecesOf (s.chosen none [] (s.need (totalLength (o.initial resident))))) := by
  have hot := hmade.registrable ho
  have hp := Manager.Sound.protects_none s
  have hviews := insert_views (t := t.entered o dirty (o.initial resident)) (s := t) rfl
  have hempty : (t.numbered o).residentRanges = [] := by rw [Manager.numbered, hot.empty]
  refine hmade.gone hs hp o.allocationId (o.initial resident) (fun id y => ?_) fun y _ hshare => ?_
  · rw [(hviews id).1]
    split
    · next heq =>
      have hnone : t.residentOf o.allocationId = [] := by
        rw [Manager.residentOf, hot.unknown]
        rfl
      rw [heq, hnone, (hot.entrant dirty).2.resident, hempty]
      simp only [true_and]
    · next hne => simp only [hne, false_and, or_false]
  · obtain ⟨q, hq, hid, -, -⟩ := holds_share.1 hshare
    obtain ⟨a, ha, hpresent, -⟩ := hs.chosen_spec hp hq
    rw [ha, hid, ho.unknown] at hpresent
    cases hpresent

/-- **What makes room for an access or a registration.** -/
theorem makes_room (h : Used s) {c : Call} {additional : Int} (hw : Wants s c additional protect ranges) :
    ((∃ message, c.run s = .error (.capacityExceeded message) s) ↔ ((s.eligible protect ranges).ncard : Int) < s.need additional) ∧
      (s.need additional ≤ (s.eligible protect ranges).ncard →
        ∃ t, c.run s = .ok () t ∧ LeastRecent s t protect ranges (s.need additional)) := by
  have hs := h.sound
  -- either there is too little to choose from and the call raises, or it returns
  have hcases : Protects s protect ranges ∧
      ((bytesOf (s.chosen protect ranges (s.need additional)) < s.need additional ∧
          ∃ message, c.run s = .error (.capacityExceeded message) s) ∨
        ∃ t, s.need additional ≤ bytesOf (s.chosen protect ranges (s.need additional)) ∧ c.run s = .ok () t ∧
          Gone s t = spans (piecesOf (s.chosen protect ranges (s.need additional)))) := by
    cases hw with
    | @access x r hx =>
      refine ⟨(hs.resolves hx.resolved).protects hs, ?_⟩
      obtain ⟨hless, message, hno⟩ | ⟨t, b, hroom, hmade, hrun⟩ := access_cases hs hx
      · exact .inl ⟨hless, message, discard_error hno⟩
      · exact .inr ⟨_, hmade.enough, discard_ok hrun, hroom.gone hmade hs hx⟩
    | @register q o resident hq =>
      refine ⟨Manager.Sound.protects_none s, ?_⟩
      obtain ⟨hless, message, hno⟩ | ⟨t, b, hmade, hrun⟩ := register_cases hs hq
      · exact .inl ⟨hless, message, discard_error hno⟩
      · exact .inr ⟨_, hmade.enough, discard_ok hrun, hmade.registered hs (Manager.registrable hq).1 q.dirty⟩
  obtain ⟨hp, hcases⟩ := hcases
  rw [← hs.chosen_less_iff hp, ← not_lt, ← hs.chosen_less_iff hp, not_lt]
  obtain ⟨hless, hno⟩ | ⟨t, henough, hrun, hgone⟩ := hcases
  · exact ⟨iff_of_true hno hless, fun hle => absurd hless (not_lt.2 hle)⟩
  · refine ⟨iff_of_false (fun hno => ?_) (not_lt.2 henough), fun _ => ⟨t, hrun, h.recorded.told.leastRecent hs hp henough hgone⟩⟩
    obtain ⟨message, hno⟩ := hno
    rw [hno] at hrun
    cases hrun

theorem wants_readNew : ∃ r, Admitted inUse readNew r := by
  have hsome : (inUse.resolveAccess "new" 0 none).toOption.map (fun r => r.owner.backing) = some (some "ssd") := by decide +kernel
  cases hr : inUse.resolveAccess "new" 0 none with
  | error e =>
    rw [hr] at hsome
    cases hsome
  | ok r =>
    rw [hr] at hsome
    exact ⟨r, hr, fun h => (by cases h.1), fun h => (by cases (Option.some.inj hsome).symm.trans h.2)⟩

theorem makes_room_inUse : ∃ r t, Admitted inUse readNew r ∧ (Call.access readNew).run inUse = .ok () t ∧
    LeastRecent inUse t (some r.owner.allocationId) r.ranges (inUse.need (totalLength r.missing)) := by
  obtain ⟨r, hr⟩ := wants_readNew
  obtain ⟨u, t, hrun⟩ := exists_of_answer (show (answerOf ((Call.access readNew).run inUse)).isSome = true by decide +kernel)
  obtain ⟨hno, hyes⟩ := makes_room inUse_used (.access hr)
  have henough := not_lt.1 fun hless => by
    obtain ⟨message, herror⟩ := hno.2 hless
    cases herror.symm.trans hrun
  obtain ⟨t', hrun', hleast⟩ := hyes henough
  exact ⟨r, t', hr, hrun', hleast⟩

/-! ## Consistency -/

/-- **A manager in use passes its own check, and a call that raises leaves it as it was.** -/
theorem checks_pass (h : Used s) :
    assertConsistent s = .ok () s ∧ ∀ (c : Call) (e : Raised) (t : Manager), c.run s = .error e t → t = s := by
  refine ⟨h.sound.assertConsistent, fun c e t hraise => ?_⟩
  obtain ⟨e', he⟩ | ⟨u, t', ht, -⟩ := c.atomic h.sound
  · exact (EStateM.Result.error.inj (he.symm.trans hraise)).2.symm
  · rw [ht] at hraise
    cases hraise

theorem checks_pass_inUse : assertConsistent inUse = .ok () inUse ∧
    ∀ (c : Call) (e : Raised) (t : Manager), c.run inUse = .error e t → t = inUse := checks_pass inUse_used

/-- **A lease holds its bytes in the pool, whatever is called in between, until it is released.** -/
theorem leases_hold (h : Used s) {cs : List Call} (hrun : Run CallStep s cs t) {leaseId : String} {l : ResidencyLease}
    (hl : s.leases.get? leaseId = some l) (hkept : ∀ c ∈ cs, c.released ≠ some leaseId) :
    t.leases.get? leaseId = some l ∧ (∃ a, t.allocations.get? l.ownerId = some a) ∧
      ∀ x, Holds l.residencyRanges x → Holds (t.residentOf l.ownerId) x := by
  have hboth : t.Sound ∧ t.leases.get? leaseId = some l := by
    refine hrun.keeps (I := fun s => s.Sound ∧ s.leases.get? leaseId = some l) (fun s c t hc hst hstep => ?_) ⟨h.sound, hl⟩
    have hmoves := c.moves hst.1 hstep
    exact ⟨hmoves.changes.sound hst.1, hmoves.leases leaseId l hst.2 (hkept c hc).symm⟩
  obtain ⟨hsound, hheld⟩ := hboth
  obtain ⟨-, -, a, ha, -, hsub⟩ := hsound.leases leaseId l hheld
  refine ⟨hheld, ⟨a, ha⟩, fun x hx => ?_⟩
  rw [(views_of_get? ha).1]
  exact hsub x hx

theorem leases_hold_afterRead : ∃ l, inUse.leases.get? "second" = some l ∧ ∀ x, Holds l.residencyRanges x → Holds (afterRead.residentOf l.ownerId) x := by
  obtain ⟨l, hl⟩ := Option.isSome_iff_exists.1 (show (inUse.leases.get? "second").isSome = true by decide +kernel)
  have hrun : Run CallStep inUse [.access readNew] afterRead := .single rfl
  exact ⟨l, hl, (leases_hold inUse_used hrun hl (by simp [Call.released])).2.2⟩

/-! ## The log -/

/-- **The ranges kept are those the log tells of, byte by byte.** -/
theorem ranges_told (h : Used s) (id : String) (x : Int) :
    (Holds (s.residentOf id) x ↔ Resident id x s.events) ∧ (Holds (s.dirtyOf id) x ↔ Dirtied id x s.events) ∧
      (∀ n, Stamped (s.stampsOf id) x n ↔ Resident id x s.events ∧ lastAccess id x s.events = some n) ∧
      ∀ a, s.allocations.get? id = some a → a.readOnly = true → ¬Dirtied id x s.events := by
  have htold := h.recorded.told
  refine ⟨htold.resident id x, htold.dirtied id x, htold.stamped id x, fun a ha hro hx => ?_⟩
  rw [← htold.dirtied, (views_of_get? ha).2.1, htold.clean id a ha hro] at hx
  exact (holds_nil x).1 hx

theorem ranges_told_inUse : Resident "old" 3 inUse.events ∧ Dirtied "old" 3 inUse.events ∧ ¬Resident "new" 0 inUse.events :=
  ⟨(ranges_told inUse_used "old" 3).1.1 (by decide +kernel), (ranges_told inUse_used "old" 3).2.1.1 (by decide +kernel),
    fun h => absurd ((ranges_told inUse_used "new" 0).1.2 h) (by decide +kernel)⟩

/-- **An eviction names exactly the readers whose leases on what it evicts were released and not yet accounted for.** -/
theorem readers_named (h : Used s) :
    (s.migrations.filter fun m => m.kind ≠ .pageIn) = s.events.reverse.flatMap Event.evictions ∧
      ∀ later id selected dirty ms earlier, s.events = later ++ .evicted id selected dirty ms :: earlier → ∀ m ∈ ms,
        m.allocationId = id ∧ m.consumerTaskIds.Nodup ∧ ∀ task, task ∈ m.consumerTaskIds ↔
          ∃ x, Holds selected x ∧ ∃ since ranges before, earlier = since ++ .leaseReleased id task ranges :: before ∧ Holds ranges x ∧
            ∀ e ∈ since, ¬Forgets id x task e := by
  have hrec := h.recorded
  refine ⟨hrec.outs, fun later id selected dirty ms earlier hsplit m hm => ?_⟩
  have hev : Evicted id selected dirty ms earlier := logged_iff.1 hrec.exact_events later _ earlier hsplit
  obtain ⟨hnodup, hmem⟩ := hev.consumers m hm
  refine ⟨hev.owner m hm, hnodup, fun task => (hmem task).trans ?_⟩
  simp only [anchored_iff]

theorem readers_named_afterRead :
    (afterRead.migrations.map fun m => (m.kind, m.consumerTaskIds)) = [(.dirtyWriteback, ["reader"]), (.pageIn, [])] ∧
      (afterRead.migrations.filter fun m => m.kind ≠ .pageIn) = afterRead.events.reverse.flatMap Event.evictions :=
  ⟨by decide +kernel, (readers_named afterRead_used).1⟩

/-- A byte no longer dirty was written back, or its allocation released. -/
theorem Dirtied.lost {id : String} {x : Int} : ∀ {later earlier : List Event}, Dirtied id x earlier → ¬Dirtied id x (later ++ earlier) →
    (∃ bytes, .released id bytes ∈ later) ∨ ∃ before selected dirty ms after, later = after ++ .evicted id selected dirty ms :: before ∧
      Holds selected x ∧ Dirtied id x (before ++ earlier)
  | [], earlier, h, hnot => absurd h hnot
  | e :: later, earlier, h, hnot => by
    by_cases hbefore : Dirtied id x (later ++ earlier)
    · cases e with
      | registered owner ranges dirty sequence => exact absurd (.inr hbefore) hnot
      | accessed owner op offset stop ranges missing pagedIn sequence => exact absurd (.inr hbefore) hnot
      | leaseReleased owner task ranges => exact absurd hbefore hnot
      | retired tasks => exact absurd hbefore hnot
      | evicted owner selected dirty ms =>
        obtain ⟨rfl, hx⟩ := not_not.1 fun hno => hnot ⟨hbefore, hno⟩
        exact .inr ⟨later, selected, dirty, ms, [], rfl, hx, hbefore⟩
      | released owner bytes =>
        obtain rfl := not_not.1 fun hno => hnot ⟨hbefore, hno⟩
        exact .inl ⟨bytes, List.mem_cons_self⟩
    · obtain ⟨bytes, hb⟩ | ⟨before, selected, dirty, ms, after, rfl, hx, hd⟩ := Dirtied.lost h hbefore
      · exact .inl ⟨bytes, List.mem_cons_of_mem e hb⟩
      · exact .inr ⟨before, selected, dirty, ms, e :: after, rfl, hx, hd⟩

theorem ncard_holds {l : List Gap} (h : Separated l) : totalLength l = ({x | Holds l x}.ncard : Int) := by
  have heq : {x | Holds l x} = (heldBytes l : Set Int) := by
    ext x
    simp only [Set.mem_ofPred_eq, Finset.mem_coe, mem_heldBytes]
  rw [h.length_eq, heq, Set.ncard_coe_finset]

/-- **No byte is lost or counted twice: what the pool holds came in and has not gone out, and no dirty byte goes out unwritten.** -/
theorem bytes_conserved (h : Used s) :
    s.pool.residentBytes = summed registeredBytes s.events + s.migrationTotals.pageInBytes + summed allocatedBytes s.events -
        s.migrationTotals.pageOutBytes - summed releasedBytes s.events ∧
      s.migrationTotals.pageOutBytes = s.migrationTotals.cleanDiscardBytes + s.migrationTotals.dirtyWritebackBytes ∧
      s.migrationTotals = s.migrations.foldl MigrationTotals.add ⟨0, 0, 0, 0⟩ ∧
      s.migrations.map Migration.sequence = List.range' 1 s.migrations.length ∧
      ∀ later earlier id x, s.events = later ++ earlier → Dirtied id x earlier → ¬Dirtied id x s.events →
        (∃ bytes, .released id bytes ∈ later) ∨ ∃ m ∈ s.migrations, ∃ selected dirty ms, .evicted id selected dirty ms ∈ later ∧ m ∈ ms ∧
          Holds dirty x ∧ m.allocationId = id ∧ m.kind = .dirtyWriteback ∧ m.byteCount = ({y | Holds dirty y}.ncard : Int) := by
  have hrec := h.recorded
  have hbal := hrec.balanced
  refine ⟨?_, hbal.pageOut, hbal.totals, hbal.numbered, fun later earlier id x hsplit hd hnot => ?_⟩
  · have := hbal.pool
    have := hbal.pageIn
    have := hbal.clean
    have := hbal.dirty
    have := hbal.pageOut
    omega
  rw [hsplit] at hnot
  obtain hrel | ⟨before, selected, dirty, ms, later', rfl, hx, hbefore⟩ := hd.lost hnot
  · exact .inl hrel
  right
  have hev : Evicted id selected dirty ms (before ++ earlier) :=
    logged_iff.1 hrec.exact_events later' _ _ (hsplit.trans (List.append_assoc _ _ _))
  have hdirty : Holds dirty x := (hev.dirtied x).2 ⟨hx, hbefore⟩
  have hpos : totalLength dirty ≠ 0 := by
    refine (hev.separated.2.length_pos fun hnil => ?_).ne'
    rw [hnil] at hdirty
    exact (holds_nil x).1 hdirty
  have hkinds : (MigrationKind.dirtyWriteback, totalLength dirty) ∈ ms.map fun m => (m.kind, m.byteCount) := by
    rw [hev.kinds, if_pos hpos]
    exact List.mem_cons_self
  obtain ⟨m, hm, heq⟩ := List.mem_map.1 hkinds
  obtain ⟨hkind, hcount⟩ := Prod.mk.inj heq
  have hin : .evicted id selected dirty ms ∈ later' ++ Event.evicted id selected dirty ms :: before :=
    List.mem_append_right _ List.mem_cons_self
  have hrecorded : m ∈ s.migrations.filter fun m => m.kind ≠ .pageIn := by
    rw [hrec.outs, List.mem_flatMap]
    refine ⟨.evicted id selected dirty ms, List.mem_reverse.2 ?_, hm⟩
    rw [hsplit]
    exact List.mem_append_left _ hin
  exact ⟨m, (List.mem_filter.1 hrecorded).1, selected, dirty, ms, hin, hm, hdirty, hev.owner m hm, hkind, hcount.trans (ncard_holds hev.separated.2)⟩

theorem bytes_conserved_afterRead : afterRead.pool.residentBytes = 4 ∧ afterRead.migrationTotals.dirtyWritebackBytes = 2 ∧
    afterRead.pool.residentBytes = summed registeredBytes afterRead.events + afterRead.migrationTotals.pageInBytes +
      summed allocatedBytes afterRead.events - afterRead.migrationTotals.pageOutBytes - summed releasedBytes afterRead.events :=
  ⟨by decide +kernel, by decide +kernel, (bytes_conserved afterRead_used).1⟩

/-! ## Accesses -/

/-- What an access returns and leaves, of the units it asks for. -/
structure Served (s t : Manager) (x : MemoryAccess) (r : Resolved) (result : AccessResult) : Prop where
  resolved : s.resolveAccess x.targetId x.offsetBytes x.sizeBytes = .ok r
  owner : result.ownerId = r.owner.allocationId
  units : ∀ y, Holds result.residencyRanges y ↔ r.size ≠ 0 ∧ y < r.owner.committedBytes ∧
    r.owner.unitStart r.offset ≤ r.owner.unitStart y ∧ r.owner.unitStart y ≤ r.owner.unitStart (r.offset + r.size - 1)
  resident : ∀ id y, Holds (t.residentOf id) y ↔
    id = result.ownerId ∧ Holds result.residencyRanges y ∨ Holds (s.residentOf id) y ∧ (id, y) ∉ Gone s t
  dirty : ∀ id y, Holds (t.dirtyOf id) y ↔
    (id = result.ownerId ∧ x.operation = .write ∧ Holds result.residencyRanges y) ∨ Holds (s.dirtyOf id) y ∧ (id, y) ∉ Gone s t
  accessed : ∀ id y, lastAccess id y t.events =
    if id = result.ownerId ∧ Holds result.residencyRanges y then some result.sequence else lastAccess id y s.events
  clock : result.sequence = s.accessSequence + 1 ∧ t.accessSequence = result.sequence
  pagedIn : result.pageInBytes = ({y | Holds result.residencyRanges y ∧ ¬Holds (s.residentOf result.ownerId) y ∧
    (x.operation = .write → ¬r.owner.Overwritten r.offset (r.offset + r.size) y)}.ncard : Int)
  migrations : t.migrations = s.migrations ++ result.migrations
  pagedOut : (result.migrations.map Migration.pageOutBytes).sum = ((Gone s t).ncard : Int)
  pool : t.pool.residentBytes = s.pool.residentBytes - (Gone s t).ncard +
    ({y | Holds result.residencyRanges y ∧ ¬Holds (s.residentOf result.ownerId) y}.ncard : Int)
  views : t.views = s.views
  leases : t.leases = s.leases

/-- **An access makes what it asks for resident, and reads back exactly what it does not overwrite.** -/
theorem access_serves (h : Used s) {x : MemoryAccess} {result : AccessResult} (hrun : access x s = .ok result t) :
    ∃ r, Served s t x r result := by
  have hs := h.sound
  by_cases hadmit : ∃ r, Admitted s x r
  swap
  · obtain ⟨e, he⟩ := access_refused hs (not_exists.1 hadmit)
    rw [he] at hrun
    cases hrun
  obtain ⟨r, hx⟩ := hadmit
  obtain ⟨-, message, hno⟩ | ⟨u, b, hroom, hmade, hok⟩ := access_cases hs hx
  · rw [hno] at hrun
    cases hrun
  rw [hok] at hrun
  obtain ⟨rfl, rfl⟩ := EStateM.Result.ok.inj hrun
  have hr := hs.resolves hx.resolved
  have htouch := hr.touch hs
  have hresident := (views_of_get? hr.present).1
  have hmissing : {y | Holds r.ranges y ∧ ¬Holds (s.residentOf r.owner.allocationId) y} = {y | Holds r.missing y} := by
    ext y
    rw [Set.mem_ofPred_eq, Set.mem_ofPred_eq, htouch.new, hresident]
  have hpaged : {y | Holds r.ranges y ∧ ¬Holds (s.residentOf r.owner.allocationId) y ∧
      (x.operation = .write → ¬r.owner.Overwritten r.offset (r.offset + r.size) y)} = {y | Holds (r.pagedIn x.operation) y} := by
    ext y
    rw [Set.mem_ofPred_eq, Set.mem_ofPred_eq, hr.mem_pagedIn hs, htouch.new, hresident, and_assoc]
  have hkept := hroom.steps.kept
  obtain ⟨-, -, -, -, hlast⟩ := hroom.steps.silent
  obtain ⟨hmigrations, hin, hout, hpool⟩ := hroom.counts hmade hs hx h
  obtain ⟨hid, -, -⟩ := hroom.same
  refine
    ⟨r,
      { resolved := hx.resolved
        owner := rfl
        units := hr.mem_ranges hs
        resident := fun id y => (hroom.leaves hmade hs hx id y).1
        dirty := fun id y => (hroom.leaves hmade hs hx id y).2
        accessed := fun id y => ?_
        clock := ⟨congrArg (· + 1) hkept.clock, rfl⟩
        pagedIn := ?_
        migrations := hmigrations
        pagedOut := hout
        pool := ?_
        views := hkept.views
        leases := hkept.leases }⟩
  · show (if b.allocationId = id ∧ Holds r.ranges y then some (u.accessSequence + 1) else lastAccess id y u.events) = _
    rw [hlast, hid]
    exact if_congr (and_congr_left fun _ => eq_comm) rfl rfl
  · rw [hin, ncard_holds (r.pagedIn_separated x.operation htouch.separated), ← hpaged]
    rfl
  · refine hpool.trans (congrArg (s.pool.residentBytes - ((Gone s (hroom.result x.operation)).ncard : Int) + ·) ?_)
    exact (ncard_holds htouch.separated).trans (congrArg (fun l : Set Int => (l.ncard : Int)) hmissing.symm)

theorem access_serves_inUse : ∃ result t, access readNew inUse = .ok result t ∧ ∃ r, Served inUse t readNew r result := by
  obtain ⟨result, t, hrun⟩ := exists_of_answer (show (answerOf (access readNew inUse)).isSome = true by decide +kernel)
  exact ⟨result, t, hrun, access_serves inUse_used hrun⟩

end HeteroSim.Residency
