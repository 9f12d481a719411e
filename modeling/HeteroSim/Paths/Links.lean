/-
Critical paths as links that share their beginnings (`scalable_serving`).
A link's sequence of keys is never built: jump pointers find where two links
part, and the first key below that differs decides.
-/
import HeteroSim.Lineage
import HeteroSim.Raising

namespace HeteroSim.Paths

inductive Raised
  /-- An attribute of `None`. -/
  | attribute
  | index (message : String)
  | value (message : String)
  | assertion (message : String)
  /-- A loop has not ended. -/
  | outOfFuel
deriving DecidableEq

variable {κ : Type}

/-- One node of the critical-path forest; a link is known by its place in the heap. -/
structure PathLink (κ : Type) where
  previous : Option ℕ
  nodeKey : κ
  depth : ℕ
  jump : Option ℕ

abbrev Heap (κ : Type) := List (PathLink κ)

def deref (heap : Heap κ) (r : Option ℕ) : Except Raised (PathLink κ) := (r.bind (heap[·]?)).elim (.error .attribute) .ok

/-- `link.depth if link is not None else 0` -/
def depthOr (heap : Heap κ) (r : Option ℕ) : Except Raised ℕ :=
  if r = none then .ok 0 else (deref heap r).map PathLink.depth

/-- `_PathLink.__init__` -/
def PathLink.new (heap : Heap κ) (previous : Option ℕ) (nodeKey : κ) : Except Raised (PathLink κ) :=
  if previous = none then .ok ⟨none, nodeKey, 1, none⟩
  else do
    let p ← deref heap previous
    if p.jump = none then return ⟨previous, nodeKey, p.depth + 1, previous⟩
    let skip ← deref heap p.jump
    let below ← depthOr heap skip.jump
    if (p.depth : ℤ) - skip.depth = skip.depth - below then return ⟨previous, nodeKey, p.depth + 1, skip.jump⟩
    else return ⟨previous, nodeKey, p.depth + 1, previous⟩

/-- `_ancestor_at` -/
def ancestorAt (heap : Heap κ) (depth : ℕ) : ℕ → Option ℕ → Except Raised (Option ℕ)
  | fuel, r => do
    let link ← deref heap r
    if link.depth ≤ depth then return r
    match fuel with
    | 0 => .error .outOfFuel
    | fuel + 1 => do
      let skip ← depthOr heap link.jump
      ancestorAt heap depth fuel (if link.jump ≠ none ∧ depth ≤ skip then link.jump else link.previous)

/-- The loop that finds where two links part: the last two apart, below one link. -/
def part (heap : Heap κ) : ℕ → Option ℕ → Option ℕ → Option ℕ × Option ℕ → Except Raised (Option ℕ × Option ℕ)
  | fuel, low, high, children =>
    if low = high then .ok children
    else match fuel with
      | 0 => .error .outOfFuel
      | fuel + 1 => do
        let a ← deref heap low
        let b ← deref heap high
        if a.jump ≠ b.jump then part heap fuel a.jump b.jump children
        else part heap fuel a.previous b.previous (low, high)

/-- The first of the depths at which the keys differ decides. -/
def firstDiffering [LinearOrder κ] (heap : Heap κ) (left right : Option ℕ) (leftDepth rightDepth : ℕ) :
    List ℕ → Except Raised (Option Bool)
  | [] => .ok none
  | depth :: depths => do
    let a ← ancestorAt heap depth leftDepth left
    let a ← deref heap a
    let b ← ancestorAt heap depth rightDepth right
    let b ← deref heap b
    if a.nodeKey ≠ b.nodeKey then return some (decide (a.nodeKey < b.nodeKey))
    else firstDiffering heap left right leftDepth rightDepth depths

/-- `_path_precedes` -/
def pathPrecedes [LinearOrder κ] (heap : Heap κ) (left right : Option ℕ) : Except Raised Bool :=
  if left = right ∨ right = none then .ok false
  else if left = none then .ok true
  else do
    let l ← deref heap left
    let r ← deref heap right
    if l.previous = r.previous then return decide (l.nodeKey < r.nodeKey)
    let shared := min l.depth r.depth
    let low ← ancestorAt heap shared l.depth left
    let high ← ancestorAt heap shared r.depth right
    if low = high then return decide (l.depth < r.depth)
    let children ← part heap shared low high (low, low)
    let lowChild ← deref heap children.1
    let highChild ← deref heap children.2
    if lowChild.nodeKey ≠ highChild.nodeKey then return decide (lowChild.nodeKey < highChild.nodeKey)
    let verdict ← firstDiffering heap left right l.depth r.depth (List.range' (lowChild.depth + 1) (shared - lowChild.depth))
    return verdict.getD (decide (l.depth < r.depth))

/-- A heap of links, each made by the constructor on one made before. -/
inductive Built : Heap κ → Prop
  | empty : Built []
  | link {heap : Heap κ} {previous : Option ℕ} {nodeKey : κ} {l : PathLink κ} : Built heap →
      (∀ i, previous = some i → i < heap.length) → PathLink.new heap previous nodeKey = .ok l → Built (heap ++ [l])

/-- The keys of the links from the first to a link. -/
def keysTo (heap : Heap κ) : ℕ → Option ℕ → List κ
  | 0, _ => []
  | n + 1, r => (r.bind (heap[·]?)).elim [] fun l => keysTo heap n l.previous ++ [l.nodeKey]

/-- A link's key tuple. -/
def keyTuple (heap : Heap κ) (r : Option ℕ) : List κ := keysTo heap heap.length r

/-! ## Links hang on earlier ones -/

def linkOf (heap : Heap κ) (r : Option ℕ) : Option (PathLink κ) := r.bind (heap[·]?)

def jumpOf (heap : Heap κ) (r : Option ℕ) : Option ℕ := (linkOf heap r).bind PathLink.jump

/-- The forest of a heap; `None` is above every first link. -/
def forest (heap : Heap κ) : Lineage (Option ℕ) κ where
  root := none
  up r := (linkOf heap r).bind PathLink.previous
  key r := (linkOf heap r).map PathLink.nodeKey
  depth r := (linkOf heap r).elim 0 PathLink.depth

/-- `None`, or a link of the heap. -/
def Valid (heap : Heap κ) (r : Option ℕ) : Prop := ∀ i, r = some i → i < heap.length

variable {heap : Heap κ} {r : Option ℕ} {l : PathLink κ}

theorem deref_ok : deref heap r = .ok l ↔ linkOf heap r = some l := by
  unfold deref linkOf
  cases r.bind (heap[·]?) <;> simp

theorem Valid.link (h : Valid heap r) (hne : r ≠ none) : ∃ l, linkOf heap r = some l := by
  cases r with
  | none => exact absurd rfl hne
  | some i => exact ⟨_, List.getElem?_eq_getElem (h i rfl)⟩

section Link

variable (hl : linkOf heap r = some l)

include hl

theorem up_of_link : (forest heap).up r = l.previous := by
  show (linkOf heap r).bind PathLink.previous = _
  rw [hl]
  rfl

theorem jumpOf_of_link : jumpOf heap r = l.jump := by
  rw [jumpOf, hl]
  rfl

theorem depth_of_link : (forest heap).depth r = l.depth := by
  show (linkOf heap r).elim 0 PathLink.depth = _
  rw [hl]
  rfl

theorem key_of_link : (forest heap).key r = some l.nodeKey := by
  show (linkOf heap r).map PathLink.nodeKey = _
  rw [hl]
  rfl

end Link

theorem linkOf_append {z : PathLink κ} (h : linkOf heap r = some l) : linkOf (heap ++ [z]) r = some l := by
  cases r with
  | none => cases h
  | some i =>
    have h : heap[i]? = some l := h
    show (heap ++ [z])[i]? = some l
    rw [List.getElem?_append_left (List.getElem?_eq_some_iff.1 h).1]
    exact h

theorem deref_append {z : PathLink κ} (h : deref heap r = .ok l) : deref (heap ++ [z]) r = .ok l :=
  deref_ok.2 (linkOf_append (deref_ok.1 h))

theorem depthOr_append {z : PathLink κ} {n : ℕ} (h : depthOr heap r = .ok n) : depthOr (heap ++ [z]) r = .ok n := by
  unfold depthOr at h ⊢
  split
  · next hr => rwa [if_pos hr] at h
  · next hr =>
    rw [if_neg hr] at h
    cases hd : deref heap r with
    | error e => rw [hd] at h; cases h
    | ok l => rw [hd] at h; rw [deref_append hd]; exact h

/-- Links made later change nothing of what a constructor reads. -/
theorem new_append {previous : Option ℕ} {nodeKey : κ} {z : PathLink κ} (h : PathLink.new heap previous nodeKey = .ok l) :
    PathLink.new (heap ++ [z]) previous nodeKey = .ok l := by
  unfold PathLink.new at h ⊢
  split
  · next hprevious => rwa [if_pos hprevious] at h
  · next hprevious =>
    rw [if_neg hprevious] at h
    obtain ⟨p, hp, h⟩ := bind_ok.1 h
    rw [deref_append hp]
    show (if p.jump = none then _ else _) = _
    split
    · next hjump => rwa [if_pos hjump] at h
    · next hjump =>
      rw [if_neg hjump] at h
      obtain ⟨skip, hskip, h⟩ := bind_ok.1 h
      obtain ⟨below, hbelow, h⟩ := bind_ok.1 h
      rw [deref_append hskip]
      show (depthOr (heap ++ [z]) skip.jump >>= _) = _
      rw [depthOr_append hbelow]
      exact h

theorem depthOr_ok {n : ℕ} (h : depthOr heap r = .ok n) : n = (forest heap).depth r := by
  unfold depthOr at h
  split at h
  · next hr => cases h; subst hr; rfl
  · cases hd : deref heap r with
    | error e => rw [hd] at h; cases h
    | ok l =>
      rw [hd] at h
      cases h
      exact (depth_of_link (deref_ok.1 hd)).symm

/-- What the constructor makes. -/
theorem new_spec {previous : Option ℕ} {nodeKey : κ} (h : PathLink.new heap previous nodeKey = .ok l) :
    l.previous = previous ∧ l.nodeKey = nodeKey ∧ l.depth = (forest heap).depth previous + 1 ∧
      l.jump = if jumpOf heap previous ≠ none ∧ ((forest heap).depth previous : ℤ) - (forest heap).depth (jumpOf heap previous) =
        (forest heap).depth (jumpOf heap previous) - (forest heap).depth (jumpOf heap (jumpOf heap previous)) then
          jumpOf heap (jumpOf heap previous)
        else previous := by
  unfold PathLink.new at h
  split at h
  · next hprevious =>
    cases h
    subst hprevious
    exact ⟨rfl, rfl, rfl, (if_neg fun hjump => hjump.1 rfl).symm⟩
  · obtain ⟨p, hp, h⟩ := bind_ok.1 h
    have hlink := deref_ok.1 hp
    rw [depth_of_link hlink, jumpOf_of_link hlink]
    split at h
    · next hjump =>
      cases h
      exact ⟨rfl, rfl, rfl, (if_neg fun hne => hne.1 hjump).symm⟩
    · next hjump =>
      obtain ⟨skip, hskip, h⟩ := bind_ok.1 h
      obtain ⟨below, hbelow, h⟩ := bind_ok.1 h
      have hskipLink := deref_ok.1 hskip
      rw [depth_of_link hskipLink, jumpOf_of_link hskipLink, ← depthOr_ok hbelow]
      split at h
      · next hfar =>
        cases h
        exact ⟨rfl, rfl, rfl, (if_pos ⟨hjump, hfar⟩).symm⟩
      · next hnear =>
        cases h
        exact ⟨rfl, rfl, rfl, (if_neg fun hfar => hnear hfar.2).symm⟩

/-- Every link is as its constructor made it, of links before it. -/
def Linked (heap : Heap κ) : Prop := ∀ i l, heap[i]? = some l →
  (∀ p, l.previous = some p → p < i) ∧ PathLink.new heap l.previous l.nodeKey = .ok l

/-- **A heap that constructors built is linked.** -/
theorem Built.linked (h : Built heap) : Linked heap := by
  induction h with
  | empty => intro i l hl; simp at hl
  | @link heap previous nodeKey z _ hprevious hnew ih =>
    obtain ⟨hzprevious, hzkey, -⟩ := new_spec hnew
    intro i l hl
    by_cases hi : i < heap.length
    · rw [List.getElem?_append_left hi] at hl
      exact ⟨(ih i l hl).1, new_append (ih i l hl).2⟩
    · rw [List.getElem?_append_right (by omega)] at hl
      obtain ⟨hlt, hlast⟩ := List.getElem?_eq_some_iff.1 hl
      simp only [List.getElem_singleton] at hlast
      subst hlast
      rw [hzprevious, hzkey]
      refine ⟨fun p hp => ?_, new_append hnew⟩
      have := hprevious p hp
      omega

theorem deref_valid (hr : Valid heap r) (hne : r ≠ none) : ∃ l, deref heap r = .ok l ∧ linkOf heap r = some l := by
  obtain ⟨l, hl⟩ := hr.link hne
  exact ⟨l, deref_ok.2 hl, hl⟩

theorem depthOr_valid (hr : Valid heap r) : depthOr heap r = .ok ((forest heap).depth r) := by
  unfold depthOr
  split
  · next hnone => subst hnone; rfl
  · next hne =>
    obtain ⟨l, hd, hl⟩ := deref_valid hr hne
    rw [hd, depth_of_link hl]
    rfl

namespace Linked

variable (h : Linked heap)

include h

theorem of_link (hl : linkOf heap r = some l) : Valid heap l.previous ∧ (∀ i, r = some i → ∀ p, l.previous = some p → p < i) ∧
    PathLink.new heap l.previous l.nodeKey = .ok l := by
  cases r with
  | none => cases hl
  | some i =>
    obtain ⟨hprevious, hnew⟩ := h i l hl
    have hlt := (List.getElem?_eq_some_iff.1 (show heap[i]? = some l from hl)).1
    refine ⟨fun p hp => (hprevious p hp).trans hlt, fun j hj p hp => ?_, hnew⟩
    cases hj
    exact hprevious p hp

theorem rooted : (forest heap).Rooted (Valid heap) where
  valid_root := fun i hi => by cases hi
  depth_root := rfl
  valid_up := by
    intro r hr hne
    obtain ⟨l, hl⟩ := hr.link hne
    rw [up_of_link hl]
    exact (h.of_link hl).1
  depth_up := by
    intro r hr hne
    obtain ⟨l, hl⟩ := hr.link hne
    rw [depth_of_link hl, up_of_link hl]
    exact (new_spec (h.of_link hl).2.2).2.2.1
  key_some := by
    intro r hr hne
    obtain ⟨l, hl⟩ := hr.link hne
    rw [key_of_link hl]
    rfl

theorem skew : (forest heap).Skew (Valid heap) (jumpOf heap) where
  jump_root := rfl
  jump_eq := by
    intro r hr hne
    obtain ⟨l, hl⟩ := hr.link hne
    rw [up_of_link hl, jumpOf_of_link hl]
    exact (new_spec (h.of_link hl).2.2).2.2.2

/-- A link's key tuple is its trail. -/
theorem keysTo_eq : ∀ {n : ℕ} {r : Option ℕ}, Valid heap r → (∀ i, r = some i → i < n) → keysTo heap n r = (forest heap).trail r
  | n, none, _, _ => by cases n <;> rfl
  | 0, some i, _, hlt => absurd (hlt i rfl) (Nat.not_lt_zero i)
  | n + 1, some i, hr, hlt => by
    obtain ⟨l, hl⟩ := hr.link (by simp)
    obtain ⟨hprevious, hbefore, -⟩ := h.of_link hl
    have hdepth := h.rooted.depth_up (some i) hr (by simp [forest])
    have hlt' : ∀ p, l.previous = some p → p < n := fun p hp => by
      have := hbefore i rfl p hp
      have := hlt i rfl
      omega
    rw [up_of_link hl] at hdepth
    rw [Lineage.trail, hdepth, Lineage.trailOf, up_of_link hl, key_of_link hl]
    show (linkOf heap (some i)).elim [] _ = _
    rw [hl, ← Lineage.trail, ← keysTo_eq hprevious hlt']
    rfl

theorem keyTuple_eq (hr : Valid heap r) : keyTuple heap r = (forest heap).trail r := h.keysTo_eq hr hr

/-! ## Where two links part -/

/-- What a link jumps to is above it. -/
theorem jump (hr : Valid heap r) (hne : r ≠ none) : ∃ m, 1 ≤ m ∧ m ≤ (forest heap).depth r ∧
    jumpOf heap r = (forest heap).above m r :=
  h.skew.above h.rooted rfl hr hne

/-- **`_ancestor_at` gives the link on the way that is so deep.** -/
theorem ancestorAt {depth : ℕ} (hpos : 1 ≤ depth) : ∀ {fuel : ℕ} {r : Option ℕ}, Valid heap r → depth ≤ (forest heap).depth r →
    (forest heap).depth r ≤ fuel + depth →
    ancestorAt heap depth fuel r = .ok ((forest heap).above ((forest heap).depth r - depth) r)
  | fuel, r, hr, hle, hfuel => by
    have hne := h.rooted.ne_root (x := r) (by omega)
    obtain ⟨l, hd, hl⟩ := deref_valid hr hne
    have hdepth := depth_of_link hl
    unfold Paths.ancestorAt
    rw [hd]
    by_cases hdone : l.depth ≤ depth
    · show (if l.depth ≤ depth then Except.ok r else _) = _
      rw [if_pos hdone, show (forest heap).depth r - depth = 0 by omega]
      rfl
    · cases fuel with
      | zero => omega
      | succ fuel =>
        obtain ⟨m, hm, hmle, hjump⟩ := h.jump hr hne
        obtain ⟨hvalid, hjumpDepth⟩ := h.rooted.above hr hmle
        rw [← hjump] at hvalid hjumpDepth
        have hj := jumpOf_of_link hl
        rw [hj] at hvalid hjumpDepth hjump
        show (if l.depth ≤ depth then Except.ok r else _) = _
        rw [if_neg hdone, depthOr_valid hvalid]
        show Paths.ancestorAt heap depth fuel _ = _
        split
        · next hskip =>
          rw [ancestorAt hpos hvalid hskip.2 (by omega), hjumpDepth, hjump, ← Lineage.above_add]
          congr 2
          omega
        · have hup := h.rooted.depth_up r hr hne
          have hvalid' := h.rooted.valid_up r hr hne
          rw [up_of_link hl] at hup hvalid'
          rw [ancestorAt hpos hvalid' (by omega) (by omega), ← up_of_link hl, ← Lineage.above_succ, up_of_link hl]
          congr 2
          omega

/-- **The loop stops below where the links part**: two links apart, as deep, that hang on one. -/
theorem part : ∀ {fuel : ℕ} {low high : Option ℕ} {children : Option ℕ × Option ℕ}, Valid heap low → Valid heap high →
    (forest heap).depth low = (forest heap).depth high → low ≠ high → (forest heap).depth low ≤ fuel →
    ∃ n, n < (forest heap).depth low ∧ (forest heap).above n low ≠ (forest heap).above n high ∧
      (forest heap).above (n + 1) low = (forest heap).above (n + 1) high ∧
      part heap fuel low high children = .ok ((forest heap).above n low, (forest heap).above n high)
  | fuel, low, high, children, hlow, hhigh, hdepth, hne, hfuel => by
    have hlowNe : low ≠ none := by
      rintro rfl
      exact hne (h.rooted.eq_root hhigh hdepth.symm).symm
    have hhighNe : high ≠ none := by
      rintro rfl
      exact hne (h.rooted.eq_root hlow hdepth)
    obtain ⟨a, hda, ha⟩ := deref_valid hlow hlowNe
    obtain ⟨b, hdb, hb⟩ := deref_valid hhigh hhighNe
    have hlowUp := h.rooted.depth_up low hlow hlowNe
    have hhighUp := h.rooted.depth_up high hhigh hhighNe
    cases fuel with
    | zero => omega
    | succ fuel =>
      unfold Paths.part
      rw [if_neg hne, hda, hdb]
      show ∃ n, _ ∧ _ ∧ _ ∧ (if a.jump ≠ b.jump then _ else _) = _
      by_cases hjumps : a.jump ≠ b.jump
      · rw [if_pos hjumps]
        obtain ⟨m, hm, hmle, hjump⟩ := h.jump hlow hlowNe
        obtain ⟨m', hm', hmle', hjump'⟩ := h.jump hhigh hhighNe
        have hsame := h.skew.depth_jump h.rooted rfl hdepth.symm hlow hhigh
        rw [hjump, hjump', (h.rooted.above hlow hmle).2, (h.rooted.above hhigh hmle').2] at hsame
        obtain rfl : m' = m := by omega
        obtain ⟨hvalid, habove⟩ := h.rooted.above hlow hmle
        obtain ⟨hvalid', habove'⟩ := h.rooted.above hhigh hmle'
        rw [← jumpOf_of_link ha, ← jumpOf_of_link hb, hjump, hjump'] at hjumps ⊢
        obtain ⟨n, hn, hapart, hjoin, hrun⟩ := @part fuel _ _ children hvalid hvalid' (by omega) hjumps (by omega)
        rw [← Lineage.above_add, ← Lineage.above_add] at hapart hrun
        rw [← Lineage.above_add, ← Lineage.above_add] at hjoin
        refine ⟨n + m', by omega, hapart, ?_, ?_⟩
        · rwa [show n + m' + 1 = n + 1 + m' by omega]
        · exact hrun
      · rw [if_neg hjumps, ← up_of_link ha, ← up_of_link hb]
        by_cases hjoin : (forest heap).up low = (forest heap).up high
        · refine ⟨0, by omega, hne, hjoin, ?_⟩
          unfold Paths.part
          rw [if_pos hjoin]
          rfl
        · obtain ⟨n, hn, hapart, hmeet, hrun⟩ := @part fuel _ _ (low, high) (h.rooted.valid_up low hlow hlowNe)
            (h.rooted.valid_up high hhigh hhighNe) (by omega) hjoin (by omega)
          exact ⟨n + 1, by omega, hapart, hmeet, hrun⟩

variable [LinearOrder κ]

/-- **The scan of depths finds the first key that differs, if one does.** -/
theorem firstDiffering {left right : Option ℕ} (hleft : Valid heap left) (hright : Valid heap right) {leftDepth rightDepth : ℕ}
    (hl : (forest heap).depth left = leftDepth) (hr : (forest heap).depth right = rightDepth) :
    ∀ {n d : ℕ}, d + n ≤ leftDepth → d + n ≤ rightDepth →
    (∀ i < d, ((forest heap).trail left)[i]? = ((forest heap).trail right)[i]?) →
    ∃ verdict, firstDiffering heap left right leftDepth rightDepth (List.range' (d + 1) n) = .ok verdict ∧
      (∀ b, verdict = some b → (b = true ↔ (forest heap).trail left < (forest heap).trail right)) ∧
      (verdict = none → ∀ i < d + n, ((forest heap).trail left)[i]? = ((forest heap).trail right)[i]?)
  | 0, d, _, _, hsame => ⟨none, rfl, fun _ hb => (by cases hb), fun _ => hsame⟩
  | n + 1, d, hln, hrn, hsame => by
    obtain ⟨hv, hd⟩ := h.rooted.above hleft (n := leftDepth - (d + 1)) (by omega)
    obtain ⟨hv', hd'⟩ := h.rooted.above hright (n := rightDepth - (d + 1)) (by omega)
    obtain ⟨a, hda, ha⟩ := deref_valid hv (h.rooted.ne_root (by omega))
    obtain ⟨b, hdb, hb⟩ := deref_valid hv' (h.rooted.ne_root (by omega))
    have hfound := @ancestorAt _ _ h (d + 1) (by omega) leftDepth left hleft (by omega) (by omega)
    have hfound' := @ancestorAt _ _ h (d + 1) (by omega) rightDepth right hright (by omega) (by omega)
    have hkey := h.rooted.trail_getElem? hleft (i := d) (by omega)
    have hkey' := h.rooted.trail_getElem? hright (i := d) (by omega)
    rw [hl] at hfound hkey
    rw [hr] at hfound' hkey'
    rw [key_of_link ha] at hkey
    rw [key_of_link hb] at hkey'
    rw [List.range'_succ]
    unfold Paths.firstDiffering
    rw [hfound]
    show ∃ v, (Paths.deref heap _ >>= _) = _ ∧ _
    rw [hda]
    show ∃ v, (Paths.ancestorAt heap _ _ _ >>= _) = _ ∧ _
    rw [hfound']
    show ∃ v, (Paths.deref heap _ >>= _) = _ ∧ _
    rw [hdb]
    show ∃ v, (if a.nodeKey ≠ b.nodeKey then _ else _) = _ ∧ _
    by_cases hne : a.nodeKey ≠ b.nodeKey
    · rw [if_pos hne]
      refine ⟨_, rfl, fun v hv => ?_, fun hnone => by cases hnone⟩
      obtain rfl := Option.some.inj hv
      rw [decide_eq_true_eq, lt_iff_of_differ hne hsame hkey hkey']
    · rw [if_neg hne]
      obtain ⟨verdict, hrun, hsome, hnone⟩ := firstDiffering hleft hright hl hr (n := n) (d := d + 1) (by omega) (by omega)
        (fun i hi => by
          by_cases hlast : i < d
          · exact hsame i hlast
          · obtain rfl : i = d := by omega
            rw [hkey, hkey', not_not.1 hne])
      exact ⟨verdict, hrun, hsome, by rwa [show d + (n + 1) = d + 1 + n by omega]⟩

/-- Links that hang on one link are in order of their own keys. -/
theorem lt_of_siblings {left right : Option ℕ} (hleft : Valid heap left) (hright : Valid heap right) {r : PathLink κ}
    (hl : linkOf heap left = some l) (hr : linkOf heap right = some r) (hsiblings : l.previous = r.previous) :
    (forest heap).trail left < (forest heap).trail right ↔ l.nodeKey < r.nodeKey := by
  have hne : left ≠ none := by rintro rfl; cases hl
  have hne' : right ≠ none := by rintro rfl; cases hr
  have hup := h.rooted.depth_up left hleft hne
  have hup' := h.rooted.depth_up right hright hne'
  have hparents : (forest heap).up left = (forest heap).up right := by rw [up_of_link hl, up_of_link hr, hsiblings]
  rw [hparents] at hup
  generalize hd : (forest heap).depth ((forest heap).up right) = d at hup hup'
  have hsame := h.rooted.trail_same (d := d) hleft hright (by omega) (by omega)
    (by rw [hup, hup', Nat.add_sub_cancel_left]; exact hparents)
  have hkey := h.rooted.trail_getElem? hleft (i := d) (by omega)
  have hkey' := h.rooted.trail_getElem? hright (i := d) (by omega)
  rw [hup, Nat.sub_self] at hkey
  rw [hup', Nat.sub_self] at hkey'
  have hkey : ((forest heap).trail left)[d]? = some l.nodeKey := hkey.trans (key_of_link hl)
  have hkey' : ((forest heap).trail right)[d]? = some r.nodeKey := hkey'.trans (key_of_link hr)
  by_cases hkeys : l.nodeKey = r.nodeKey
  · rw [hkeys, lt_iff_length fun i hi _ => ?_, h.rooted.length_trail hleft, h.rooted.length_trail hright, hup, hup']
    · simp
    · rw [h.rooted.length_trail hleft] at hi
      by_cases hlast : i < d
      · exact hsame i hlast
      · obtain rfl : i = d := by omega
        rw [hkey, hkey', hkeys]
  · exact lt_iff_of_differ hkeys hsame hkey hkey'

/-- Trails that agree as far as both go are in order of the depths. -/
theorem lt_iff_depth {left right : Option ℕ} (hleft : Valid heap left) (hright : Valid heap right)
    (hsame : ∀ i < min ((forest heap).depth left) ((forest heap).depth right),
      ((forest heap).trail left)[i]? = ((forest heap).trail right)[i]?) :
    (forest heap).trail left < (forest heap).trail right ↔ (forest heap).depth left < (forest heap).depth right := by
  have hlength := h.rooted.length_trail hleft
  have hlength' := h.rooted.length_trail hright
  rw [lt_iff_length fun i hi hi' => hsame i (lt_min (by omega) (by omega)), hlength, hlength']

/-- What the comparison does with two links that hang on different ones. -/
theorem pathPrecedes_apart {left right : Option ℕ} (hleft : Valid heap left) (hright : Valid heap right) {r : PathLink κ}
    (hl : linkOf heap left = some l) (hr : linkOf heap right = some r) :
    (do
      let low ← Paths.ancestorAt heap (min l.depth r.depth) l.depth left
      let high ← Paths.ancestorAt heap (min l.depth r.depth) r.depth right
      if low = high then return decide (l.depth < r.depth)
      let children ← Paths.part heap (min l.depth r.depth) low high (low, low)
      let lowChild ← Paths.deref heap children.1
      let highChild ← Paths.deref heap children.2
      if lowChild.nodeKey ≠ highChild.nodeKey then return decide (lowChild.nodeKey < highChild.nodeKey)
      let verdict ← Paths.firstDiffering heap left right l.depth r.depth
        (List.range' (lowChild.depth + 1) (min l.depth r.depth - lowChild.depth))
      return verdict.getD (decide (l.depth < r.depth))) =
      Except.ok (decide ((forest heap).trail left < (forest heap).trail right)) := by
  have hne : left ≠ none := by rintro rfl; cases hl
  have hne' : right ≠ none := by rintro rfl; cases hr
  have hdl := depth_of_link hl
  have hdr := depth_of_link hr
  have hpos := h.rooted.depth_up left hleft hne
  have hpos' := h.rooted.depth_up right hright hne'
  generalize hshared : min l.depth r.depth = shared
  have hlow := @ancestorAt _ _ h shared (by omega) l.depth left hleft (by omega) (by omega)
  have hhigh := @ancestorAt _ _ h shared (by omega) r.depth right hright (by omega) (by omega)
  obtain ⟨hlowValid, hlowDepth⟩ := h.rooted.above hleft (n := (forest heap).depth left - shared) (by omega)
  obtain ⟨hhighValid, hhighDepth⟩ := h.rooted.above hright (n := (forest heap).depth right - shared) (by omega)
  rw [hlow]
  show (Paths.ancestorAt heap _ _ _ >>= _) = _
  rw [hhigh]
  show (if _ then _ else _) = _
  by_cases hmeet : (forest heap).above ((forest heap).depth left - shared) left =
      (forest heap).above ((forest heap).depth right - shared) right
  · rw [if_pos hmeet]
    have hsame := h.rooted.trail_same (d := shared) hleft hright (by omega) (by omega) hmeet
    have hiff := h.lt_iff_depth hleft hright (by rwa [hdl, hdr, hshared])
    rw [hdl, hdr] at hiff
    simp only [hiff]
    rfl
  · rw [if_neg hmeet]
    obtain ⟨n, hn, hapart, hjoin, hrun⟩ := @part _ _ h shared _ _ ((forest heap).above ((forest heap).depth left - shared) left,
      (forest heap).above ((forest heap).depth left - shared) left) hlowValid hhighValid (by omega) hmeet (by omega)
    rw [← Lineage.above_add, ← Lineage.above_add] at hrun hapart hjoin
    rw [hlowDepth] at hn
    show (Paths.part heap shared _ _ _ >>= _) = _
    rw [hrun]
    obtain ⟨hchild, hchildDepth⟩ := h.rooted.above hleft (n := n + ((forest heap).depth left - shared)) (by omega)
    obtain ⟨hchild', hchildDepth'⟩ := h.rooted.above hright (n := n + ((forest heap).depth right - shared)) (by omega)
    obtain ⟨a, hda, ha⟩ := deref_valid hchild (h.rooted.ne_root (by omega))
    obtain ⟨b, hdb, hb⟩ := deref_valid hchild' (h.rooted.ne_root (by omega))
    have hdepth := depth_of_link ha
    -- below `d` the ways are one, and at `d` stand the children's keys
    obtain ⟨d, hd⟩ : ∃ d, a.depth = d + 1 := ⟨a.depth - 1, by omega⟩
    have hsame := h.rooted.trail_same (d := d) hleft hright (by omega) (by omega) (by
      rwa [show (forest heap).depth left - d = n + 1 + ((forest heap).depth left - shared) by omega,
        show (forest heap).depth right - d = n + 1 + ((forest heap).depth right - shared) by omega])
    have hkey := h.rooted.trail_getElem? hleft (i := d) (by omega)
    have hkey' := h.rooted.trail_getElem? hright (i := d) (by omega)
    rw [show (forest heap).depth left - (d + 1) = n + ((forest heap).depth left - shared) by omega, key_of_link ha] at hkey
    rw [show (forest heap).depth right - (d + 1) = n + ((forest heap).depth right - shared) by omega, key_of_link hb] at hkey'
    show (Paths.deref heap _ >>= _) = _
    rw [hda]
    show (Paths.deref heap _ >>= _) = _
    rw [hdb]
    show (if a.nodeKey ≠ b.nodeKey then _ else _) = _
    by_cases hkeys : a.nodeKey ≠ b.nodeKey
    · rw [if_pos hkeys]
      simp only [lt_iff_of_differ hkeys hsame hkey hkey']
      rfl
    · rw [if_neg hkeys, hd]
      obtain ⟨verdict, hscan, hsome, hnone⟩ := @firstDiffering _ _ h _ left right hleft hright l.depth r.depth hdl hdr
        (shared - (d + 1)) (d + 1) (by omega) (by omega) fun i hi => by
          by_cases hlast : i < d
          · exact hsame i hlast
          · obtain rfl : i = d := by omega
            rw [hkey, hkey', not_not.1 hkeys]
      rw [hscan]
      show Except.ok (verdict.getD _) = _
      congr 1
      cases verdict with
      | some v =>
        rw [Option.getD_some, Bool.eq_iff_iff, hsome v rfl, decide_eq_true_eq]
      | none =>
        have hall := hnone rfl
        rw [show d + 1 + (shared - (d + 1)) = shared by omega] at hall
        have hiff := h.lt_iff_depth hleft hright (by rwa [hdl, hdr, hshared])
        rw [hdl, hdr] at hiff
        simp only [hiff]
        rfl

/-- **`_path_precedes` is the order of the key tuples.** -/
theorem pathPrecedes {left right : Option ℕ} (hleft : Valid heap left) (hright : Valid heap right) :
    pathPrecedes heap left right = .ok (decide ((forest heap).trail left < (forest heap).trail right)) := by
  unfold Paths.pathPrecedes
  by_cases hfirst : left = right ∨ right = none
  · rw [if_pos hfirst]
    congr 1
    refine (decide_eq_false ?_).symm
    rcases hfirst with rfl | rfl
    · exact lt_irrefl _
    · exact List.not_lt_nil _
  · obtain ⟨hne, hrightNe⟩ := not_or.1 hfirst
    rw [if_neg hfirst]
    by_cases hleftNone : left = none
    · rw [if_pos hleftNone, hleftNone]
      congr 1
      refine (decide_eq_true ?_).symm
      have hup := h.rooted.depth_up right hright hrightNe
      refine (@lt_iff_depth _ _ h _ none right (fun i hi => by cases hi) hright fun i hi => ?_).2 ?_
      · exact absurd (hi.trans_le (min_le_left _ _)) (Nat.not_lt_zero i)
      · show 0 < _
        omega
    · rw [if_neg hleftNone]
      obtain ⟨l, hdl, hl⟩ := deref_valid hleft hleftNone
      obtain ⟨r, hdr, hr⟩ := deref_valid hright hrightNe
      rw [hdl, hdr]
      show (if l.previous = r.previous then _ else _) = _
      by_cases hsiblings : l.previous = r.previous
      · rw [if_pos hsiblings]
        simp only [h.lt_of_siblings hleft hright hl hr hsiblings]
        rfl
      · rw [if_neg hsiblings]
        exact h.pathPrecedes_apart hleft hright hl hr

end Linked

end HeteroSim.Paths
