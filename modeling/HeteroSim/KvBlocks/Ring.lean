/-
Host placement of KV blocks (`kv_placement`): the tails of one pool on a ring
of token positions, the pick of a block clear of the tails already there, and
the free list the rule leaves in a long stationary run.
-/
import HeteroSim.Raising

namespace HeteroSim.KvBlocks

/-- The arguments of a `KVTailRing`. -/
structure Geometry where
  banks : ℕ
  perPage : ℕ
  stride : ℕ
  shift : ℕ
  held : ℕ
  banks_pos : 0 < banks
  perPage_pos : 0 < perPage

def Geometry.length (geometry : Geometry) : ℕ := geometry.banks * geometry.perPage

theorem Geometry.length_pos (geometry : Geometry) : 0 < geometry.length :=
  Nat.mul_pos geometry.banks_pos geometry.perPage_pos

/-- Shifts at which two tails are compared, with the pairs of K and V that are. -/
def Geometry.centres (geometry : Geometry) : List (ℤ × ℤ) :=
  let offset : ℤ := geometry.shift * geometry.perPage % geometry.length
  let centres : List (ℤ × ℤ) := [(0, 2), (offset, 1), (-offset, 1)]
  if geometry.held = 0 then centres
  else centres.flatMap fun centre => [0, (geometry.held : ℤ), -geometry.held].map fun jump => (centre.1 + jump, centre.2)

/-- How many tails stand at each position of the ring. -/
structure KVTailRing where
  geometry : Geometry
  tails : List ℤ
  tails_length : tails.length = geometry.length

namespace KVTailRing

def empty (geometry : Geometry) : KVTailRing := ⟨geometry, List.replicate geometry.length 0, List.length_replicate⟩

def position (ring : KVTailRing) (block : ℕ) (rows : ℤ) : ℕ :=
  let stride : ℤ := ring.geometry.stride * ring.geometry.perPage % ring.geometry.length
  ((block * stride + if ring.geometry.held = 0 then rows else rows % ring.geometry.held) % ring.geometry.length).toNat

def add (ring : KVTailRing) (position : ℕ) (sign : ℤ) : KVTailRing :=
  ⟨ring.geometry, ring.tails.modify position (· + sign), by rw [List.length_modify, ring.tails_length]⟩

/-- Tails before `i` on three turns of the ring. -/
def total (ring : KVTailRing) (i : ℤ) : ℤ := ((ring.tails ++ ring.tails ++ ring.tails).take i.toNat).sum

/-- The place of a centre's tails, seen from a block's. -/
def facing (ring : KVTailRing) (position : ℕ) (centre : ℤ) : ℤ := (position + centre) % ring.geometry.length

def fills (ring : KVTailRing) (position : ℕ) : ℤ :=
  (ring.geometry.centres.map fun centre => centre.2 * ring.tails.getD (ring.facing position centre.1).toNat 0).sum

def shared (ring : KVTailRing) (position : ℕ) : ℤ :=
  let reach : ℤ := ring.geometry.perPage - 1
  (ring.geometry.centres.map fun centre => centre.2 *
    (ring.total (ring.facing position centre.1 + ring.geometry.length + reach + 1) -
      ring.total (ring.facing position centre.1 + ring.geometry.length - reach))).sum

/-- Same-step page fills first, then shared banks. -/
def score (ring : KVTailRing) (rows : ℤ) (block : ℕ) : ℤ ×ₗ ℤ :=
  toLex (ring.fills (ring.position block rows), ring.shared (ring.position block rows))

/-- The index of the block with the least score, the earliest on a tie. -/
def pick (ring : KVTailRing) (options : List ℕ) (rows : ℤ) : ℕ :=
  let scores := options.map (ring.score rows)
  scores.findIdx fun s => scores.all fun t => s ≤ t

theorem position_lt (ring : KVTailRing) (block : ℕ) (rows : ℤ) : ring.position block rows < ring.tails.length := by
  have hpos : (0 : ℤ) < ring.geometry.length := Int.natCast_pos.2 ring.geometry.length_pos
  rw [ring.tails_length, position, Int.toNat_lt (Int.emod_nonneg _ hpos.ne')]
  exact Int.emod_lt_of_pos _ hpos

/-- There is a best block whenever there is one to pick. -/
theorem pick_lt (ring : KVTailRing) {options : List ℕ} (h : options ≠ []) (rows : ℤ) :
    ring.pick options rows < options.length := by
  obtain ⟨least, hleast, hmin⟩ := (options.map (ring.score rows)).toFinset.exists_min_image id
    (by simpa [List.toFinset_nonempty_iff] using h)
  rw [← List.length_map (f := ring.score rows), pick]
  refine List.findIdx_lt_length_of_exists ⟨least, List.mem_toFinset.1 hleast, ?_⟩
  rw [List.all_eq_true]
  exact fun t ht => decide_eq_true (hmin t (List.mem_toFinset.2 ht))

theorem add_tails (ring : KVTailRing) {position p : ℕ} (sign : ℤ) :
    (ring.add position sign).tails[p]? = ring.tails[p]?.map fun n => if p = position then n + sign else n := by
  change (ring.tails.modify position (· + sign))[p]? = _
  rw [List.getElem?_modify]
  by_cases h : position = p
  · subst h
    simp
  · simp [h, Ne.symm h]

end KVTailRing

/-! ## The seeds' blocks -/

/-- `random.Random(0).shuffle`: some order of the list it is given. -/
def Shuffle : Type := { shuffle : List ℕ → List ℕ // ∀ l, (shuffle l).Perm l }

def settleGenerations : ℕ := 2

/-- The run that settles: the pool's tails, the free blocks, the slots' rows, the blocks held with their tails. -/
structure Settling where
  ring : KVTailRing
  free : List ℕ
  slots : List ℤ
  held : List (ℕ × ℕ)

def Settling.hold (s : Settling) (block : ℕ) (rows : ℤ) : Settling :=
  { s with
    ring := s.ring.add (s.ring.position block rows) 1
    held := s.held ++ [(block, s.ring.position block rows)] }

def Settling.seed (s : Settling) (rows : ℤ) : Except String Settling :=
  match s.free with
  | [] => .error "pop from an empty deque"
  | block :: free => .ok ({ s with free := free }.hold block rows)

def Settling.admits (s : Settling) (output : ℤ) : Except String Settling :=
  match s.slots with
  | [] => .error "pop from an empty deque"
  | first :: slots =>
    let rows := first - output
    let pick := s.ring.pick s.free rows
    match s.free[pick]? with
    | none => .error "index out of range"
    | some block => .ok ({ s with free := s.free.eraseIdx pick, slots := slots ++ [rows] }.hold block rows)

/-- The oldest finishes, and an import takes its place. -/
def Settling.refill (s : Settling) (output : ℤ) : Except String Settling :=
  match s.held with
  | [] => .error "pop from an empty deque"
  | oldest :: held => Settling.admits { s with ring := s.ring.add oldest.2 (-1), free := s.free ++ [oldest.1], held := held } output

/-- `n` times. -/
def repeated {α : Type} (step : α → Except String α) : ℕ → α → Except String α
  | 0, a => .ok a
  | n + 1, a => do repeated step n (← step a)

def settledSeedBlocks (shuffle : Shuffle) (ages : List ℤ) (prompt output : ℤ) (blocks : ℕ) (geometry : Geometry)
    (prepared : ℕ) : Except String (List ℕ) := do
  let slots := ages.reverse.map fun age => prompt + age + settleGenerations * output
  let start : Settling := ⟨.empty geometry, shuffle.1 (List.range blocks), slots, []⟩
  let seeded ← slots.foldlM Settling.seed start
  let filled ← repeated (Settling.admits · output) (min prepared (blocks - ages.length)) seeded
  let settled ← repeated (Settling.refill · output) (settleGenerations * ages.length) filled
  let seeds := (settled.held.take ages.length).map Prod.fst
  if seeds.length < ages.length then .error "pop from an empty deque"
  else .ok (seeds.reverse ++ settled.free ++ (settled.held.drop ages.length).map Prod.fst)

/-- The blocks of a settling run, free or held. -/
def Settling.all (s : Settling) : List ℕ := s.free ++ s.held.map Prod.fst

theorem Settling.seed_perm {s t : Settling} {rows : ℤ} (h : s.seed rows = .ok t) : t.all.Perm s.all := by
  unfold Settling.seed at h
  split at h
  · cases h
  · next block free hfree =>
    cases h
    simp only [Settling.all, Settling.hold, hfree, List.map_append, List.map_cons, List.map_nil, List.cons_append]
    rw [← List.append_assoc]
    exact List.perm_append_singleton block _

theorem Settling.admits_perm {s t : Settling} {output : ℤ} (h : s.admits output = .ok t) : t.all.Perm s.all := by
  unfold Settling.admits at h
  split at h
  · cases h
  · simp only at h
    split at h
    · cases h
    · next block hblock =>
      cases h
      obtain ⟨hlt, rfl⟩ := List.getElem?_eq_some_iff.1 hblock
      simp only [Settling.all, Settling.hold, List.map_append, List.map_cons, List.map_nil]
      rw [← List.append_assoc]
      refine (List.perm_append_singleton _ _).trans ?_
      rw [← List.cons_append]
      exact (List.getElem_cons_eraseIdx_perm hlt).append_right _

theorem Settling.refill_perm {s t : Settling} {output : ℤ} (h : s.refill output = .ok t) : t.all.Perm s.all := by
  unfold Settling.refill at h
  split at h
  · cases h
  · next oldest held hheld =>
    refine (Settling.admits_perm h).trans ?_
    simp only [Settling.all, hheld, List.map_cons, List.append_assoc, List.singleton_append]
    exact List.Perm.refl _

theorem repeated_keeps {α : Type} {P : α → Prop} {step : α → Except String α}
    (hstep : ∀ a b, step a = .ok b → P a → P b) : ∀ {n : ℕ} {a b : α}, repeated step n a = .ok b → P a → P b
  | 0, a, b, h, ha => by cases h; exact ha
  | n + 1, a, b, h, ha => by
    obtain ⟨c, hc, h⟩ := bind_ok.1 h
    exact repeated_keeps hstep h (hstep a c hc ha)

theorem foldlM_keeps {α β : Type} {P : α → Prop} {step : α → β → Except String α}
    (hstep : ∀ a b c, step a c = .ok b → P a → P b) : ∀ {l : List β} {a b : α}, l.foldlM step a = .ok b → P a → P b
  | [], a, b, h, ha => by cases h; exact ha
  | x :: l, a, b, h, ha => by
    rw [List.foldlM_cons] at h
    obtain ⟨c, hc, h⟩ := bind_ok.1 h
    exact foldlM_keeps hstep h (hstep a c x hc ha)

/-- **The settled list is the pool**: no block lost, none twice. -/
theorem settledSeedBlocks_perm {shuffle : Shuffle} {ages : List ℤ} {prompt output : ℤ} {blocks : ℕ} {geometry : Geometry}
    {prepared : ℕ} {l : List ℕ} (h : settledSeedBlocks shuffle ages prompt output blocks geometry prepared = .ok l) :
    l.Perm (List.range blocks) := by
  obtain ⟨seeded, hseeded, h⟩ := bind_ok.1 h
  obtain ⟨filled, hfilled, h⟩ := bind_ok.1 h
  obtain ⟨settled, hsettled, h⟩ := bind_ok.1 h
  have hall : settled.all.Perm (List.range blocks) := by
    refine repeated_keeps (P := fun s => s.all.Perm (List.range blocks)) (fun a b hb ha => (Settling.refill_perm hb).trans ha)
      hsettled ?_
    refine repeated_keeps (P := fun s => s.all.Perm (List.range blocks)) (fun a b hb ha => (Settling.admits_perm hb).trans ha)
      hfilled ?_
    refine foldlM_keeps (P := fun s => s.all.Perm (List.range blocks)) (fun a b c hb ha => (Settling.seed_perm hb).trans ha)
      hseeded ?_
    simpa [Settling.all] using shuffle.2 (List.range blocks)
  dsimp only at h
  split at h
  · cases h
  · cases h
    refine List.Perm.trans ?_ hall
    have hheld : settled.held.map Prod.fst = (settled.held.take ages.length).map Prod.fst ++
        (settled.held.drop ages.length).map Prod.fst := by rw [← List.map_append, List.take_append_drop]
    rw [Settling.all, hheld, List.append_assoc]
    refine ((List.reverse_perm _).append_right _).trans ?_
    rw [← List.append_assoc, ← List.append_assoc]
    exact List.perm_append_comm.append_right _

end HeteroSim.KvBlocks
