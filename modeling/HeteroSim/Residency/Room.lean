/-
Making room: what may be evicted, what is, and when there is not enough. The
bytes evicted are the least recently accessed of those that nothing protects,
whole units of them, and no unit more than are needed.
-/
import HeteroSim.Residency.Moves
import HeteroSim.Residency.Selection

namespace HeteroSim.Residency

variable {s s' t : Manager} {a b : Allocation}

/-! ## Evictions, one after another -/

/-- The manager's own registers and what evictions do not touch are as before. -/
structure Kept (s s' : Manager) : Prop where
  views : s'.views = s.views
  leases : s'.leases = s.leases
  component : s'.pool.componentId = s.pool.componentId
  limit : s'.pool.capacityBytes = s.pool.capacityBytes
  page : s'.pool.pageSizeBytes = s.pool.pageSizeBytes
  clock : s'.accessSequence = s.accessSequence
  registrations : s'.registrationSequence = s.registrationSequence
  depth : s'.deferredValidationDepth = s.deferredValidationDepth
  migrations : ∃ ms, s'.migrations = s.migrations ++ ms

theorem Kept.refl (s : Manager) : Kept s s := ⟨rfl, rfl, rfl, rfl, rfl, rfl, rfl, rfl, [], by rw [List.append_nil]⟩

theorem Kept.trans (h : Kept s s') (h' : Kept s' t) : Kept s t := by
  obtain ⟨ms, hms⟩ := h.migrations
  obtain ⟨ns, hns⟩ := h'.migrations
  exact ⟨h'.views.trans h.views, h'.leases.trans h.leases, h'.component.trans h.component, h'.limit.trans h.limit,
    h'.page.trans h.page, h'.clock.trans h.clock, h'.registrations.trans h.registrations, h'.depth.trans h.depth, ms ++ ns,
    by rw [hns, hms, List.append_assoc]⟩

/-- One eviction. -/
def EvictionStep (s s' : Manager) : Prop := ∃ a selected, Evictable s a selected ∧ s' = s.evicted a selected

def Evictions : Manager → Manager → Prop := Relation.ReflTransGen EvictionStep

theorem Evictions.kept (h : Evictions s s') : Kept s s' := by
  induction h with
  | refl => exact .refl s
  | tail _ hstep ih =>
    obtain ⟨a, selected, -, rfl⟩ := hstep
    exact ih.trans ⟨rfl, rfl, rfl, rfl, rfl, rfl, rfl, rfl, _, rfl⟩

theorem Evictions.sound (h : Evictions s s') (hs : s.Sound) : s'.Sound := by
  induction h with
  | refl => exact hs
  | tail _ hstep ih =>
    obtain ⟨a, selected, hev, rfl⟩ := hstep
    exact (hev.replaced ih).sound ih

/-- What is planned of one owner can still be evicted after another's eviction. -/
theorem Evictable.after {selected chosen : List Gap} (h : Evictable s b chosen) (hb : b.allocationId ≠ a.allocationId) :
    Evictable (s.evicted a selected) b chosen :=
  { h with present := (Dict.get?_insert_of_ne _ _ hb).trans h.present }

/-- A plan, by owner, carried out. -/
theorem evict_items : ∀ {items : List (String × List Gap)} {s : Manager}, s.Sound → (items.map Prod.fst).Nodup →
    (∀ p ∈ items, ∃ a, a.allocationId = p.1 ∧ Evictable s a (normalizeRanges p.2)) →
    ∃ s', (items.forM fun p => evictOwnerRanges p.1 p.2 : M Unit) s = .ok () s' ∧ Evictions s s' ∧
      s'.pool.residentBytes = s.pool.residentBytes - (items.map fun p => totalLength (normalizeRanges p.2)).sum ∧
      (∀ id, id ∉ items.map Prod.fst → s'.allocations.get? id = s.allocations.get? id) ∧
      ∀ p ∈ items, ∀ a, s.allocations.get? p.1 = some a → s'.allocations.get? p.1 = some (a.without (normalizeRanges p.2))
  | [], s, _, _, _ => ⟨s, rfl, .refl, (Int.sub_zero _).symm, fun _ _ => rfl, fun _ hp => (by cases hp)⟩
  | p :: items, s, hs, hnodup, hev => by
    obtain ⟨a, hid, ha⟩ := hev p List.mem_cons_self
    obtain ⟨hnot, hrest⟩ := List.nodup_cons.1 hnodup
    have hne : ∀ q ∈ items, q.1 ≠ a.allocationId := by
      intro q hq heq
      exact hnot (hid ▸ heq ▸ List.mem_map_of_mem hq)
    obtain ⟨s', hrun, hsteps, hpool, hothers, hmine⟩ := evict_items ((ha.replaced hs).sound hs) hrest fun q hq => by
      obtain ⟨b, hb, hother⟩ := hev q (List.mem_cons_of_mem p hq)
      exact ⟨b, hb, hother.after (hb ▸ hne q hq)⟩
    have hget (id : String) (hne : id ≠ a.allocationId) : (s.evicted a (normalizeRanges p.2)).allocations.get? id =
        s.allocations.get? id := Dict.get?_insert_of_ne _ _ hne
    refine ⟨s', (ok_bind (hid ▸ ha.evict hs rfl)).trans hrun, .head ⟨a, _, ha, rfl⟩ hsteps, ?_, ?_, ?_⟩
    · have hone : (s.evicted a (normalizeRanges p.2)).pool.residentBytes =
          s.pool.residentBytes + -totalLength (normalizeRanges p.2) := rfl
      rw [hpool, hone, List.map_cons, List.sum_cons]
      omega
    · intro id hnotin
      rw [List.map_cons, List.mem_cons, not_or] at hnotin
      rw [hothers id hnotin.2, hget id (hid ▸ hnotin.1)]
    · intro q hq c hc
      obtain rfl | hq := List.mem_cons.1 hq
      · rw [← hid, ha.present] at hc
        obtain rfl := Option.some.inj hc
        rw [hothers q.1 hnot, ← hid]
        exact Manager.holding_get? _ _
      · exact hmine q hq c ((hget q.1 (hne q hq)).trans hc)

/-! ## Candidates -/

variable {protect : Option String} {ranges : List Gap}

/-- The ranges protected are units of the owner they are of. -/
def Protects (s : Manager) (protect : Option String) (ranges : List Gap) : Prop :=
  ∀ id a, protect = some id → s.allocations.get? id = some a → Ends a.Unit ranges

/-- What may be evicted: a byte of an allocation that has a backing and may leave its pool, leased by nobody and not protected. -/
structure Manager.Eligible (s : Manager) (protect : Option String) (ranges : List Gap) (a : Allocation) (x : Int) : Prop where
  unpinned : a.pinned = false
  evictable : a.evictable = true
  backed : a.backing ≠ none
  resident : Holds a.residentRanges x
  unleased : ∀ id l, s.leases.get? id = some l → l.ownerId = a.allocationId → ¬Holds l.residencyRanges x
  unprotected : ¬(protect = some a.allocationId ∧ Holds ranges x)

theorem holds_leasedRanges (s : Manager) (id : String) (x : Int) :
    Holds (s.leasedRanges id) x ↔ ∃ leaseId l, s.leases.get? leaseId = some l ∧ l.ownerId = id ∧ Holds l.residencyRanges x := by
  rw [Manager.leasedRanges, holds_normalizeRanges, holds_flatMap]
  simp only [List.mem_filter, Dict.mem_values, decide_eq_true_eq]
  constructor
  · rintro ⟨l, ⟨⟨leaseId, hl⟩, ho⟩, hx⟩
    exact ⟨leaseId, l, hl, ho, hx⟩
  · rintro ⟨leaseId, l, hl, ho, hx⟩
    exact ⟨l, ⟨⟨leaseId, hl⟩, ho⟩, hx⟩

theorem holds_cuts (s : Manager) (a : Allocation) (protect : Option String) (ranges : List Gap) (x : Int) :
    Holds (s.cuts a protect ranges) x ↔ Holds (s.leasedRanges a.allocationId) x ∨ protect = some a.allocationId ∧ Holds ranges x := by
  rw [Manager.cuts, holds_append]
  refine or_congr_right ?_
  split
  · next h => simp only [← h, true_and]
  · next h => simp only [holds_nil, Ne.symm h, false_and]

theorem Allocation.fixed_eq_false : a.fixed = false ↔ a.pinned = false ∧ a.evictable = true ∧ a.residentRanges ≠ [] ∧ a.backing ≠ none := by
  unfold fixed
  simp only [Bool.or_eq_false_iff, Bool.not_eq_false', decide_eq_false_iff_not, ne_eq, and_assoc]

theorem eligible_iff {x : Int} : s.Eligible protect ranges a x ↔
    a.fixed = false ∧ Holds a.residentRanges x ∧ ¬Holds (s.cuts a protect ranges) x := by
  rw [Allocation.fixed_eq_false, holds_cuts, holds_leasedRanges]
  constructor
  · intro h
    refine ⟨⟨h.unpinned, h.evictable, fun hnil => ?_, h.backed⟩, h.resident, ?_⟩
    · exact (holds_nil x).1 (hnil ▸ h.resident)
    · rintro (⟨id, l, hl, ho, hx⟩ | hx)
      · exact h.unleased id l hl ho hx
      · exact h.unprotected hx
  · rintro ⟨⟨hp, he, _, hb⟩, hx, hcuts⟩
    exact ⟨hp, he, hb, hx, fun id l hl ho hx => hcuts (.inl ⟨id, l, hl, ho, hx⟩), fun hx => hcuts (.inr hx)⟩

theorem Manager.Sound.cuts_ends (hs : s.Sound) (hp : Protects s protect ranges) (ha : s.allocations.get? a.allocationId = some a) :
    Ends a.Unit (s.cuts a protect ranges) := by
  intro g hg
  obtain hg | hg := List.mem_append.1 hg
  · refine Ends.normalize ?_ g hg
    intro k hk
    obtain ⟨l, hl, hk⟩ := List.mem_flatMap.1 hk
    obtain ⟨hmem, ho⟩ := List.mem_filter.1 hl
    obtain ⟨id, hl⟩ := Dict.mem_values.1 hmem
    obtain ⟨-, -, b, hb, hends, -⟩ := hs.leases id l hl
    rw [of_decide_eq_true ho, ha] at hb
    exact Option.some.inj hb ▸ hends k hk
  · split at hg
    · next h => exact hp _ a h.symm ha g hg
    · cases hg

theorem normal_map_mk {l : List Gap} (h : Separated l) (n : ℕ) : Normal (l.map (Stamp.mk · n)) := by
  refine ⟨fun r hr => ?_, ?_⟩
  · obtain ⟨g, hg, rfl⟩ := List.mem_map.1 hr
    exact h.proper g hg
  · rw [List.pairwise_map]
    exact h.apart.imp fun hlt => .inl hlt

theorem subtractRanges_within {g k : Gap} (hg : g.lo < g.hi) {cuts : List Gap} (hk : k ∈ subtractRanges [g] cuts) :
    g.lo ≤ k.lo ∧ k.hi ≤ g.hi := by
  have hsep : Separated [g] := ⟨fun k hk => List.mem_singleton.1 hk ▸ hg, List.pairwise_singleton _ _⟩
  obtain ⟨hs, hx⟩ := subtractRanges_spec hsep cuts
  have hproper := hs.proper k hk
  have hlo := ((hx k.lo).1 ⟨k, hk, le_rfl, hproper⟩).1
  have hhi := ((hx (k.hi - 1)).1 ⟨k, hk, by omega, by omega⟩).1
  simp only [holds_cons, holds_nil, or_false] at hlo hhi
  omega

/-- The fragments of an allocation's stamps that may be evicted. -/
theorem Manager.Sound.fragments (hs : s.Sound) (hp : Protects s protect ranges) (ha : s.allocations.get? a.allocationId = some a) :
    Normal (s.candidateRecencyRanges a protect ranges) ∧
      Ends a.Unit ((s.candidateRecencyRanges a protect ranges).map Stamp.range) ∧
      ∀ x n, Stamped (s.candidateRecencyRanges a protect ranges) x n ↔
        Stamped a.residentRecencyRanges x n ∧ s.Eligible protect ranges a x := by
  obtain ⟨-, -, hsound⟩ := hs.owners _ a ha
  have hheld : ∀ {x n}, Stamped a.residentRecencyRanges x n → Holds a.residentRanges x := fun hst =>
    (hsound.covered _).1 (holds_ranges.2 ⟨_, hst⟩)
  have hsingle : ∀ r ∈ a.residentRecencyRanges, Separated [r.range] := fun r hr =>
    ⟨fun k hk => List.mem_singleton.1 hk ▸ hsound.recency.proper r hr, List.pairwise_singleton _ _⟩
  unfold candidateRecencyRanges
  split
  · next hfixed =>
    refine ⟨normal_nil, fun g hg => absurd hg List.not_mem_nil, fun x n => ⟨?_, fun h => ?_⟩⟩
    · rintro ⟨r, hr, -⟩
      exact absurd hr List.not_mem_nil
    · rw [(eligible_iff.1 h.2).1] at hfixed
      cases hfixed
  · next hfixed =>
    rw [Bool.not_eq_true] at hfixed
    refine ⟨hsound.recency.flatMap (fun r hr => normal_map_mk (subtractRanges_spec (hsingle r hr) _).1 _) ?_, ?_, fun x n => ?_⟩
    · intro r hr q hq
      obtain ⟨k, hk, rfl⟩ := List.mem_map.1 hq
      exact ⟨(subtractRanges_within (hsound.recency.proper r hr) hk).1, (subtractRanges_within (hsound.recency.proper r hr) hk).2, rfl⟩
    · intro g hg
      obtain ⟨q, hq, rfl⟩ := List.mem_map.1 hg
      obtain ⟨r, hr, hq⟩ := List.mem_flatMap.1 hq
      obtain ⟨k, hk, rfl⟩ := List.mem_map.1 hq
      refine Ends.subtract ?_ (hs.cuts_ends hp ha) k hk
      intro g hg
      rw [List.mem_singleton.1 hg]
      exact hsound.recencyEnds r.range (List.mem_map_of_mem hr)
    · rw [stamped_flatMap, eligible_iff]
      constructor
      · rintro ⟨r, hr, q, hq, hx, hn⟩
        obtain ⟨k, hk, rfl⟩ := List.mem_map.1 hq
        obtain ⟨hin, hcut⟩ := ((subtractRanges_spec (hsingle r hr) _).2 x).1 ⟨k, hk, hx⟩
        simp only [holds_cons, holds_nil, or_false] at hin
        have hst : Stamped a.residentRecencyRanges x n := ⟨r, hr, hin, hn⟩
        exact ⟨hst, hfixed, hheld hst, hcut⟩
      · rintro ⟨⟨r, hr, hx, hn⟩, h⟩
        obtain ⟨-, -, hcut⟩ := h
        obtain ⟨k, hk, hin⟩ := ((subtractRanges_spec (hsingle r hr) (s.cuts a protect ranges)).2 x).2
          ⟨by simpa only [holds_cons, holds_nil, or_false] using hx, hcut⟩
        exact ⟨r, hr, Stamp.mk k r.seq, List.mem_map_of_mem hk, hin, hn⟩

theorem mapM_ok {ε α β : Type} {f : α → Except ε β} {g : α → β} : ∀ {l : List α}, (∀ a ∈ l, f a = .ok (g a)) → l.mapM f = .ok (l.map g)
  | [], _ => rfl
  | a :: l, h => by
    rw [List.mapM_cons, h a List.mem_cons_self, mapM_ok fun b hb => h b (List.mem_cons_of_mem a hb)]
    rfl

/-- A fragment of an allocation's stamps, as a candidate. -/
def Allocation.candidate (a : Allocation) (r : Stamp) : Candidate :=
  ⟨r.seq, a.registrationOrder, a.allocationId, r.range, a.residencyGranuleBytes⟩

def Manager.found (s : Manager) (protect : Option String) (ranges : List Gap) : List Candidate :=
  s.allocations.values.flatMap fun a => (s.candidateRecencyRanges a protect ranges).map a.candidate

/-- The candidates, the least recently accessed first. -/
def Manager.sorted (s : Manager) (protect : Option String) (ranges : List Gap) : List Candidate :=
  (s.found protect ranges).insertionSort fun c d => c.key ≤ d.key

theorem Manager.Sound.present (hs : s.Sound) (ha : a ∈ s.allocations.values) : s.allocations.get? a.allocationId = some a := by
  obtain ⟨id, hid⟩ := Dict.mem_values.1 ha
  rw [(hs.owners id a hid).1, hid]

theorem Manager.Sound.candidates (hs : s.Sound) (hp : Protects s protect ranges) :
    s.candidates protect ranges = .ok (s.sorted protect ranges) := by
  have hinner : ∀ a ∈ s.allocations.values, ((s.candidateRecencyRanges a protect ranges).mapM fun r => do
      ensureBackingUnitRanges "eviction candidate" [r.range] a.committedBytes a.residencyGranuleBytes
      return Candidate.mk r.seq a.registrationOrder a.allocationId r.range a.residencyGranuleBytes : Except Raised _) =
      .ok ((s.candidateRecencyRanges a protect ranges).map a.candidate) := by
    intro a ha
    obtain ⟨-, -, hsound⟩ := hs.owners _ a (hs.present ha)
    refine mapM_ok fun r hr => bind_ok.2 ⟨(), ensureBackingUnitRanges_ok hsound.committed_nonneg hsound.granule_pos ?_, rfl⟩
    intro g hg
    rw [List.mem_singleton.1 hg]
    exact (hs.fragments hp (hs.present ha)).2.1 r.range (List.mem_map_of_mem hr)
  rw [Manager.candidates, mapM_ok hinner]
  rfl

/-- A candidate's bytes may be evicted, and were all last accessed at once. -/
theorem Manager.Sound.found_spec (hs : s.Sound) (hp : Protects s protect ranges) {c : Candidate} (hc : c ∈ s.found protect ranges) :
    ∃ a, a.allocationId = c.ownerId ∧ s.allocations.get? c.ownerId = some a ∧ c.granule = a.residencyGranuleBytes ∧
      c.Whole a.committedBytes ∧ ∀ x, c.range.lo ≤ x → x < c.range.hi →
        Stamped a.residentRecencyRanges x c.sequence ∧ s.Eligible protect ranges a x := by
  obtain ⟨a, ha, hc⟩ := List.mem_flatMap.1 hc
  obtain ⟨r, hr, rfl⟩ := List.mem_map.1 hc
  have hpresent := hs.present ha
  obtain ⟨-, -, hsound⟩ := hs.owners _ a hpresent
  obtain ⟨hnormal, hends, hstamps⟩ := hs.fragments hp hpresent
  obtain ⟨hlo, hhi⟩ := hends r.range (List.mem_map_of_mem hr)
  exact ⟨a, rfl, hpresent, rfl, ⟨hnormal.proper r hr, hlo, hhi, hsound.granule_pos⟩,
    fun x h1 h2 => (hstamps x r.seq).1 ⟨r, hr, ⟨h1, h2⟩, rfl⟩⟩

/-- Every byte that may be evicted is some candidate's. -/
theorem Manager.Sound.found_covers (hs : s.Sound) (hp : Protects s protect ranges) (ha : s.allocations.get? a.allocationId = some a)
    {x : Int} {n : ℕ} (hx : s.Eligible protect ranges a x) (hn : Stamped a.residentRecencyRanges x n) :
    ∃ c ∈ s.found protect ranges, c.ownerId = a.allocationId ∧ (c.range.lo ≤ x ∧ x < c.range.hi) ∧ c.sequence = n := by
  obtain ⟨r, hr, hin, hseq⟩ := ((hs.fragments hp ha).2.2 x n).2 ⟨hn, hx⟩
  exact ⟨a.candidate r, List.mem_flatMap.2 ⟨a, Dict.mem_values.2 ⟨_, ha⟩, List.mem_map_of_mem hr⟩, rfl, hin, hseq⟩

/-- Candidates have no byte in common. -/
def Candidate.Disjoint (c d : Candidate) : Prop :=
  c.ownerId = d.ownerId → ∀ x, c.range.lo ≤ x → x < c.range.hi → ¬(d.range.lo ≤ x ∧ x < d.range.hi)

theorem Manager.Sound.found_disjoint (hs : s.Sound) (hp : Protects s protect ranges) :
    (s.found protect ranges).Pairwise Candidate.Disjoint := by
  refine List.pairwise_flatMap.2 ⟨fun a ha => ?_, ?_⟩
  · rw [List.pairwise_map]
    refine (hs.fragments hp (hs.present ha)).1.apart.imp fun hlt _ x h1 h2 h3 => ?_
    simp only [Allocation.candidate] at h1 h2 h3
    omega
  · rw [Dict.values, List.pairwise_map]
    have hkeys := s.allocations.keys_nodup
    rw [List.Nodup, Dict.keys, List.pairwise_map] at hkeys
    refine hkeys.imp_of_mem fun hp hq hne c hc d hd heq => absurd ?_ hne
    obtain ⟨q, -, rfl⟩ := List.mem_map.1 hc
    obtain ⟨r, -, rfl⟩ := List.mem_map.1 hd
    rw [← (hs.owners _ _ (Dict.get?_eq_some.2 hp)).1, ← (hs.owners _ _ (Dict.get?_eq_some.2 hq)).1]
    exact heq

/-! ## The plan -/

variable {n : Int}

/-- What is evicted where so many bytes are needed. -/
def Manager.chosen (s : Manager) (protect : Option String) (ranges : List Gap) (n : Int) : List (Candidate × Gap) :=
  picks n (s.sorted protect ranges)

theorem mem_sorted {c : Candidate} : c ∈ s.sorted protect ranges ↔ c ∈ s.found protect ranges :=
  (List.perm_insertionSort _ _).mem_iff

theorem sorted_pairwise (s : Manager) (protect : Option String) (ranges : List Gap) :
    (s.sorted protect ranges).Pairwise fun c d => c.key ≤ d.key := by
  have htotal : Std.Total fun c d : Candidate => c.key ≤ d.key := ⟨fun c d => le_total c.key d.key⟩
  have htrans : IsTrans Candidate fun c d => c.key ≤ d.key := ⟨fun _ _ _ => le_trans⟩
  exact List.pairwise_insertionSort _ _

theorem Manager.Sound.sorted_whole (hs : s.Sound) (hp : Protects s protect ranges) :
    ∀ c ∈ s.sorted protect ranges, ∃ committed, c.Whole committed := by
  intro c hc
  obtain ⟨a, -, -, -, hw, -⟩ := hs.found_spec hp (mem_sorted.1 hc)
  exact ⟨_, hw⟩

theorem Manager.Sound.sorted_disjoint (hs : s.Sound) (hp : Protects s protect ranges) :
    (s.sorted protect ranges).Pairwise Candidate.Disjoint := by
  refine (hs.found_disjoint hp).perm (List.perm_insertionSort _ _).symm fun h ho x h1 h2 h3 => ?_
  exact h ho.symm x h3.1 h3.2 ⟨h1, h2⟩

/-- What a pick is of. -/
theorem Manager.Sound.chosen_spec (hs : s.Sound) (hp : Protects s protect ranges) {p : Candidate × Gap}
    (hmem : p ∈ s.chosen protect ranges n) : ∃ a, a.allocationId = p.1.ownerId ∧ s.allocations.get? a.allocationId = some a ∧
      p.1.granule = a.residencyGranuleBytes ∧ a.Unit p.2.lo ∧ a.Unit p.2.hi ∧ p.2.lo < p.2.hi ∧
      ∀ x, p.2.lo ≤ x → x < p.2.hi → Stamped a.residentRecencyRanges x p.1.sequence ∧ s.Eligible protect ranges a x := by
  obtain ⟨hc, hpick⟩ := picks_picked (hs.sorted_whole hp) p hmem
  obtain ⟨a, hid, ha, hgranule, hw, hbytes⟩ := hs.found_spec hp (mem_sorted.1 hc)
  refine ⟨a, hid, hid ▸ ha, hgranule, ?_, ?_, hpick.proper, fun x h1 h2 => hbytes x (hpick.lo ▸ h1) (h2.trans_le hpick.hi)⟩
  · have hlo := hw.lo
    rw [hgranule, ← hpick.lo] at hlo
    exact hlo
  · have hhi := hpick.unit _ hw
    rw [hgranule] at hhi
    exact hhi

/-- The bytes picked of an owner. -/
def Manager.share (s : Manager) (protect : Option String) (ranges : List Gap) (n : Int) (id : String) : List Gap :=
  normalizeRanges (rangesOf (s.chosen protect ranges n) id)

theorem holds_share {id : String} {x : Int} : Holds (s.share protect ranges n id) x ↔
    ∃ p ∈ s.chosen protect ranges n, p.1.ownerId = id ∧ p.2.lo ≤ x ∧ x < p.2.hi := by
  rw [Manager.share, holds_normalizeRanges]
  unfold Holds
  simp only [mem_rangesOf]
  constructor
  · rintro ⟨g, ⟨p, hp, hid, hg⟩, hx⟩
    exact ⟨p, hp, hid, hg ▸ hx⟩
  · rintro ⟨p, hp, hid, hx⟩
    exact ⟨p.2, ⟨p, hp, hid, rfl⟩, hx⟩

/-- **What is picked of an owner can be evicted.** -/
theorem Manager.Sound.share_evictable (hs : s.Sound) (hp : Protects s protect ranges)
    (ha : s.allocations.get? a.allocationId = some a) (hne : rangesOf (s.chosen protect ranges n) a.allocationId ≠ []) :
    Evictable s a (s.share protect ranges n a.allocationId) := by
  have hmine : ∀ p ∈ s.chosen protect ranges n, p.1.ownerId = a.allocationId → a.Unit p.2.lo ∧ a.Unit p.2.hi ∧ p.2.lo < p.2.hi ∧
      ∀ x, p.2.lo ≤ x → x < p.2.hi → Stamped a.residentRecencyRanges x p.1.sequence ∧ s.Eligible protect ranges a x := by
    intro p hmem hid
    obtain ⟨b, hb, hpresent, -, hrest⟩ := hs.chosen_spec hp hmem
    rw [hb, hid, ha] at hpresent
    exact Option.some.inj hpresent ▸ hrest
  have hbytes : ∀ x, Holds (s.share protect ranges n a.allocationId) x → s.Eligible protect ranges a x := by
    intro x hx
    obtain ⟨p, hmem, hid, h1, h2⟩ := holds_share.1 hx
    exact ((hmine p hmem hid).2.2.2 x h1 h2).2
  obtain ⟨g, hg⟩ := List.exists_mem_of_ne_nil _ hne
  obtain ⟨p, hmem, hid, -⟩ := mem_rangesOf.1 hg
  have hfirst : Holds (s.share protect ranges n a.allocationId) p.2.lo :=
    holds_share.2 ⟨p, hmem, hid, le_rfl, (hmine p hmem hid).2.2.1⟩
  exact
    { present := ha
      evictable := (hbytes _ hfirst).evictable
      separated := normalizeRanges_separated _
      nonempty := fun hnil => (holds_nil p.2.lo).1 (hnil ▸ hfirst)
      ends := Ends.normalize fun k hk => by
        obtain ⟨q, hq, hqid, rfl⟩ := mem_rangesOf.1 hk
        exact ⟨(hmine q hq hqid).1, (hmine q hq hqid).2.1⟩
      held := fun x hx => (hbytes x hx).resident
      unleased := fun id l hl ho x hx hin => (hbytes x hin).unleased id l hl ho hx }

/-- No byte is picked twice. -/
theorem Manager.Sound.length_share (hs : s.Sound) (hp : Protects s protect ranges) (id : String) :
    totalLength (s.share protect ranges n id) = totalLength (rangesOf (s.chosen protect ranges n) id) := by
  have hpicked := picks_picked (hs.sorted_whole hp) (n := n)
  refine totalLength_normalize (fun g hg => ?_) ?_
  · obtain ⟨p, hmem, -, rfl⟩ := mem_rangesOf.1 hg
    exact (hpicked p hmem).2.proper
  · unfold rangesOf
    rw [List.pairwise_map]
    have hpair := picks_pairwise (n := n) (hs.sorted_whole hp) (hs.sorted_disjoint hp)
    refine (List.Pairwise.sublist List.filter_sublist hpair).imp_of_mem fun hpm hqm hdisj x h1 h2 h3 => ?_
    obtain ⟨hpm, hpid⟩ := List.mem_filter.1 hpm
    obtain ⟨hqm, hqid⟩ := List.mem_filter.1 hqm
    have h := (hpicked _ hpm).2
    have h' := (hpicked _ hqm).2
    refine hdisj ((of_decide_eq_true hpid).trans (of_decide_eq_true hqid).symm) x ?_ ?_ ⟨?_, ?_⟩
    · exact h.lo ▸ h1
    · exact h2.trans_le h.hi
    · exact h'.lo ▸ h3.1
    · exact h3.2.trans_le h'.hi

theorem share_eq_nil {id : String} (h : rangesOf (s.chosen protect ranges n) id = []) : s.share protect ranges n id = [] := by
  rw [Manager.share, h]
  rfl

/-- The plan, by owner. -/
def Manager.planned (s : Manager) (protect : Option String) (ranges : List Gap) (n : Int) : Dict String (List Gap) :=
  byOwner .empty (s.chosen protect ranges n)

theorem mem_planned {p : String × List Gap} : p ∈ (s.planned protect ranges n).items ↔
    p.2 = rangesOf (s.chosen protect ranges n) p.1 ∧ p.2 ≠ [] := by
  rw [← get?_byOwner_empty]
  exact Dict.get?_eq_some.symm

theorem Manager.Sound.planned_evictable (hs : s.Sound) (hp : Protects s protect ranges) :
    ∀ p ∈ (s.planned protect ranges n).items, ∃ a, a.allocationId = p.1 ∧ Evictable s a (normalizeRanges p.2) := by
  intro p hmem
  obtain ⟨hranges, hne⟩ := mem_planned.1 hmem
  rw [hranges] at hne ⊢
  obtain ⟨g, hg⟩ := List.exists_mem_of_ne_nil _ hne
  obtain ⟨q, hq, hid, -⟩ := mem_rangesOf.1 hg
  obtain ⟨a, ha, hpresent, -⟩ := hs.chosen_spec hp hq
  rw [hid] at ha
  rw [← ha] at hne ⊢
  exact ⟨a, rfl, hs.share_evictable hp hpresent hne⟩

theorem Manager.Sound.planned_length (hs : s.Sound) (hp : Protects s protect ranges) :
    ((s.planned protect ranges n).items.map fun p => totalLength (normalizeRanges p.2)).sum =
      bytesOf (s.chosen protect ranges n) := by
  have hsum : ((s.planned protect ranges n).values.map totalLength).sum = bytesOf (s.chosen protect ranges n) := by
    have hnone : Tally totalLength (Dict.empty : Dict String (List Gap)).get? 0 := tally_none _
    have htally := tally_byOwner (s.chosen protect ranges n) hnone
    rw [Int.zero_add] at htally
    exact (tally_dict totalLength _).unique htally
  rw [← hsum, Dict.values, List.map_map]
  refine congrArg List.sum (List.map_congr_left fun p hmem => ?_)
  obtain ⟨hranges, -⟩ := mem_planned.1 hmem
  rw [Function.comp, hranges]
  exact hs.length_share hp p.1

/-- `_make_room`, with its need computed. -/
theorem makeRoom_eq {additional : Int} (hadd : 0 ≤ additional)
    (hn : n = max 0 (s.pool.residentBytes + additional - s.pool.capacityBytes)) :
    makeRoom additional protect ranges s = (if n ≠ 0 then do
      let candidates ← raise (s.candidates protect ranges)
      let plan := candidates.foldl Plan.select ⟨n, .empty⟩
      raise (refuse (0 < plan.remaining) (.capacityExceeded
        s!"{s.pool.componentId} needs {additional} additional resident bytes, but only {n - plan.remaining} of {n} can be made available"))
      plan.planned.items.forM fun p => evictOwnerRanges p.1 p.2
      else pure () : M Unit) s := by
  have hinteger : integer "additional_bytes" additional 0 = .ok additional := if_neg (not_lt.2 hadd)
  rw [makeRoom, hn]
  exact (ok_bind (raise_ok hinteger)).trans (get_then _)

theorem Manager.Sound.sorted_proper (hs : s.Sound) (hp : Protects s protect ranges) :
    ∀ c ∈ s.sorted protect ranges, c.range.lo < c.range.hi :=
  fun c hc => (hs.sorted_whole hp c hc).choose_spec.proper

/-- **There is enough: the plan is carried out, and so much room made.** -/
theorem makeRoom_ok (hs : s.Sound) (hp : Protects s protect ranges) {additional : Int} (hadd : 0 ≤ additional)
    (hn : n = max 0 (s.pool.residentBytes + additional - s.pool.capacityBytes))
    (henough : n ≤ bytesOf (s.chosen protect ranges n)) :
    ∃ s', makeRoom additional protect ranges s = .ok () s' ∧ Evictions s s' ∧
      s'.pool.residentBytes = s.pool.residentBytes - bytesOf (s.chosen protect ranges n) ∧
      (∀ id, s.allocations.get? id = none → s'.allocations.get? id = none) ∧
      ∀ a, s.allocations.get? a.allocationId = some a → ∃ b, s'.allocations.get? a.allocationId = some b ∧
        Left a b (s.share protect ranges n a.allocationId) := by
  by_cases hzero : n = 0
  · rw [makeRoom_eq hadd hn, if_neg (not_not.2 hzero), hzero]
    have hnone : s.chosen protect ranges 0 = [] := picks_of_le le_rfl _
    have hshare (id : String) : s.share protect ranges 0 id = [] := share_eq_nil (by rw [hnone]; rfl)
    refine ⟨s, rfl, .refl, ?_, fun _ h => h, fun a ha => ⟨a, ha, ?_⟩⟩
    · rw [hnone]
      exact (Int.sub_zero _).symm
    · rw [hshare]
      exact .none a
  · obtain ⟨s', hrun, hsteps, hpool, hothers, hmine⟩ := evict_items hs (s.planned protect ranges n).nodup
      (hs.planned_evictable hp)
    rw [hs.planned_length hp] at hpool
    refine ⟨s', ?_, hsteps, hpool, fun id hid => ?_, fun a ha => ?_⟩
    · rw [makeRoom_eq hadd hn, if_pos hzero]
      refine (ok_bind (raise_ok (hs.candidates hp))).trans ?_
      simp only [foldl_select (hs.sorted_proper hp)]
      refine (pass_bind ?_).trans hrun
      have : bytesOf (picks n (s.sorted protect ranges)) = bytesOf (s.chosen protect ranges n) := rfl
      omega
    · rw [hothers id fun hin => ?_, hid]
      obtain ⟨p, hmem, rfl⟩ := List.mem_map.1 hin
      obtain ⟨a, hpid, hev⟩ := hs.planned_evictable hp p hmem
      have hpresent := hev.present
      rw [hpid, hid] at hpresent
      cases hpresent
    · by_cases hnil : rangesOf (s.chosen protect ranges n) a.allocationId = []
      · rw [share_eq_nil hnil]
        refine ⟨a, (hothers _ fun hin => ?_).trans ha, .none a⟩
        obtain ⟨p, hmem, hpid⟩ := List.mem_map.1 hin
        obtain ⟨hranges, hne⟩ := mem_planned.1 hmem
        rw [hpid] at hranges
        exact hne (hranges.trans hnil)
      · have hmem : (a.allocationId, rangesOf (s.chosen protect ranges n) a.allocationId) ∈ (s.planned protect ranges n).items :=
          mem_planned.2 ⟨rfl, hnil⟩
        have hev := hs.share_evictable hp ha hnil
        obtain ⟨-, -, hsound⟩ := hs.owners _ a ha
        exact ⟨_, hmine _ hmem a ha, (hsound.without hev.separated hev.ends hev.held).2⟩

/-- **There is not: nothing is evicted.** -/
theorem makeRoom_error (hs : s.Sound) (hp : Protects s protect ranges) {additional : Int} (hadd : 0 ≤ additional)
    (hn : n = max 0 (s.pool.residentBytes + additional - s.pool.capacityBytes))
    (hless : bytesOf (s.chosen protect ranges n) < n) :
    ∃ message, makeRoom additional protect ranges s = .error (.capacityExceeded message) s := by
  have hnonneg : 0 ≤ bytesOf (s.chosen protect ranges n) :=
    bytesOf_nonneg fun p hmem => (picks_picked (hs.sorted_whole hp) p hmem).2.proper
  rw [makeRoom_eq hadd hn, if_pos (by omega)]
  apply Exists.intro
  refine (ok_bind (raise_ok (hs.candidates hp))).trans ?_
  simp only [foldl_select (hs.sorted_proper hp)]
  refine error_bind (raise_error (if_pos ?_))
  have : bytesOf (picks n (s.sorted protect ranges)) = bytesOf (s.chosen protect ranges n) := rfl
  omega

end HeteroSim.Residency
