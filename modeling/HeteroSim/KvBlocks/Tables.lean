/-
Physical KV block ids of every request (`_KVBlockTables`): a free list for
each EP group and KV kind, a table for each request, and on striped NAND KV
the ring of the tails. A pool is its free list with its head.
-/
import HeteroSim.Collect
import HeteroSim.KvBlocks.Ring
import HeteroSim.KvBlocks.Settle

namespace HeteroSim.KvBlocks

structure BlockTables where
  counts : Dict String ℕ
  ring : ℕ
  pools : Dict (ℕ × String) (FreeList ℕ)
  tables : Dict String (Dict String (List ℕ)) := .empty
  rings : Dict (ℕ × String) KVTailRing := .empty
  slots : Dict ℕ (List ℤ) := .empty
  seeds : Dict ℕ (List ℤ) := .empty
  output : ℤ := 0
  tails : Dict String (Dict String ℕ) := .empty

namespace BlockTables

def new (groups : ℕ) (counts : Dict String ℕ) (ring : ℕ) : BlockTables where
  counts := counts
  ring := ring
  pools := .collect ((List.range groups).flatMap fun group =>
    counts.items.map fun p => ((group, p.1), .ofList (List.range p.2)))

/-! ## Stationary starts -/

/-- Only the `chunk` kind is a ring. -/
def limit (b : BlockTables) (kind : String) : Option ℕ := if kind = "chunk" then some b.ring else none

/-- A pool the cycle overflows keeps its list. -/
def settlePool (b : BlockTables) (agesByGroup : List (List ℤ)) (c : Refill) (pools : Dict (ℕ × String) (FreeList ℕ))
    (key : ℕ × String) : Except String (Dict (ℕ × String) (FreeList ℕ)) :=
  match pools.get? key with
  | none => .error "KeyError"
  | some free =>
    match agesByGroup[key.1]? with
    | none => .error "list index out of range"
    | some ages =>
      match settledFreeList c (b.limit key.2) ages free.live with
      | none => .ok pools
      | some settled => .ok (pools.insert key (.ofList settled))

def settle (b : BlockTables) (agesByGroup : List (List ℤ)) (c : Refill) : Except String BlockTables := do
  let pools ← b.pools.keys.foldlM (b.settlePool agesByGroup c) b.pools
  .ok { b with pools := pools }

structure Placement where
  shuffle : Shuffle
  agesByGroup : List (List ℤ)
  prompt : ℤ
  output : ℤ
  groupPool : ℕ
  geometry : Dict String Geometry

def placePool (p : Placement) (b : BlockTables) (key : ℕ × String) : Except String BlockTables :=
  match b.pools.get? key with
  | none => .error "KeyError"
  | some free =>
    match p.agesByGroup[key.1]? with
    | none => .error "list index out of range"
    | some ages =>
      if free.cells.length < ages.length ∨ ¬ages.Pairwise (· ≤ ·) then
        .error "striped KV needs its seeds, youngest first, within the pool"
      else
        match p.geometry.get? key.2 with
        | none => .error "KeyError"
        | some geometry => do
          let settled ← settledSeedBlocks p.shuffle ages p.prompt p.output free.cells.length geometry p.groupPool
          .ok { b with
            pools := b.pools.insert key (.ofListAt settled free.head)
            rings := b.rings.insert key (.empty geometry) }

/-- The rows of each group, by its number. -/
def byGroup (f : List ℤ → List ℤ) (agesByGroup : List (List ℤ)) : Dict ℕ (List ℤ) :=
  .collect (agesByGroup.zipIdx.map fun p => (p.2, f p.1))

def placeSeeds (b : BlockTables) (p : Placement) : Except String BlockTables := do
  let placed ← b.pools.keys.foldlM (placePool p) { b with output := p.output }
  .ok { placed with
    slots := byGroup (fun ages => ages.reverse.map (p.prompt + ·)) p.agesByGroup
    seeds := byGroup (fun ages => ages.map (p.prompt + ·)) p.agesByGroup }

/-! ## A request's tail -/

/-- The kind's head block becomes the tail's, unless a better one is free. -/
def placeKind (group : ℕ) (request : String) (rows : ℤ) (seeded : Bool) (kind : String) :
    EStateM String BlockTables PUnit := do
  let b ← get
  match b.pools.get? (group, kind), b.rings.get? (group, kind), b.tails.get? request with
  | some free, some ring, some tails =>
    let picked := if seeded then free else free.toFront (ring.pick free.live rows)
    match picked.live with
    | [] => throw "KV block free list is exhausted"
    | block :: _ =>
      set { b with
        pools := b.pools.insert (group, kind) picked
        rings := b.rings.insert (group, kind) (ring.add (ring.position block rows) 1)
        tails := b.tails.insert request (tails.insert kind (ring.position block rows)) }
  | _, _, _ => throw "KeyError"

/-- The rows of the request to place, a seed's or those of the slot it will land in. -/
def takeRows (group : ℕ) : EStateM String BlockTables (Bool × ℤ) := do
  let b ← get
  match b.seeds.get? group with
  | none => throw "KeyError"
  | some (rows :: seeds) =>
    set { b with seeds := b.seeds.insert group seeds }
    pure (true, rows)
  | some [] =>
    match b.slots.get? group with
    | none => throw "KeyError"
    | some [] => throw "pop from an empty deque"
    | some (first :: slots) =>
      set { b with slots := b.slots.insert group (slots ++ [first - b.output]) }
      pure (false, first - b.output)

def place (group : ℕ) (request : String) : EStateM String BlockTables PUnit := do
  let rows ← takeRows group
  modify fun b => { b with tails := b.tails.insert request .empty }
  let b ← get
  forM b.counts.keys (placeKind group request rows.2 rows.1)

/-! ## Resizing -/

def blocksForPages (b : BlockTables) (kind : String) (pages : ℕ) : ℕ := if kind = "chunk" then min pages b.ring else pages

def blocksOf (b : BlockTables) (request kind : String) : List ℕ :=
  ((b.tables.get? request).bind fun table => table.get? kind).getD []

/-- Every kind, in turn, has what the pages need. -/
def fits (b : BlockTables) (group : ℕ) (request : String) (pages : ℕ) : List String → Except String Bool
  | [] => .ok true
  | kind :: kinds =>
    match b.pools.get? (group, kind) with
    | none => .error "KeyError"
    | some free =>
      if b.blocksForPages kind pages ≤ (b.blocksOf request kind).length + free.available then
        b.fits group request pages kinds
      else .ok false

def canResize (b : BlockTables) (group : ℕ) (request : String) (pages : ℕ) : Except String Bool :=
  b.fits group request pages b.counts.keys

/-- A grown pool, compacted once most of its cells lie before the head. -/
def grown (free : FreeList ℕ) : FreeList ℕ :=
  if 65536 < free.head ∧ free.cells.length < 2 * free.head then free.compact else free

/-- The block that held the newest row, if it is among those beyond `target`. -/
def newestFreed (blocks : List ℕ) (target previous : ℕ) : Option ℕ :=
  if 0 < previous ∧ target ≤ (previous - 1) % blocks.length then blocks[(previous - 1) % blocks.length]? else none

/-- A pool and one kind's blocks of a request, both at once. -/
def exchange (b : BlockTables) (key : ℕ × String) (free : FreeList ℕ) (request : String) (blocks : List ℕ) : BlockTables :=
  { b with
    pools := b.pools.insert key free
    tables := b.tables.insert request (((b.tables.get? request).getD .empty).insert key.2 blocks) }

def reporting (freed : Dict String ℕ) (kind : String) : Option ℕ → Dict String ℕ
  | none => freed
  | some block => freed.insert kind block

def resizeKind (group : ℕ) (request : String) (pages previous : ℕ) (freed : Dict String ℕ) (kind : String) :
    EStateM String BlockTables (Dict String ℕ) := do
  let b ← get
  match b.pools.get? (group, kind) with
  | none => throw "KeyError"
  | some free =>
    let blocks := b.blocksOf request kind
    let target := b.blocksForPages kind pages
    if blocks.length < target then
      match free.take (target - blocks.length) with
      | none => throw "KV block free list is exhausted"
      | some next => do
        set (b.exchange (group, kind) (grown next.2) request (blocks ++ next.1))
        pure freed
    else if target < blocks.length then do
      set (b.exchange (group, kind) (free.push (blocks.drop target)) request (blocks.take target))
      pure (reporting freed kind (newestFreed blocks target previous))
    else pure freed

/-- One tail less. -/
def untail (group : ℕ) (tail : String × ℕ) : EStateM String BlockTables PUnit := do
  let b ← get
  match b.rings.get? (group, tail.1) with
  | none => throw "KeyError"
  | some ring => set { b with rings := b.rings.insert (group, tail.1) (ring.add tail.2 (-1)) }

def release (group : ℕ) (request : String) : EStateM String BlockTables PUnit := do
  let b ← get
  set { b with tables := b.tables.erase request, tails := b.tails.erase request }
  forM ((b.tails.get? request).getD .empty).items (untail group)

def resizeTable (group : ℕ) (request : String) (pages previous : ℕ) : EStateM String BlockTables (Dict String ℕ) := do
  let b ← get
  let freed ← ((b.tables.get? request).getD .empty).keys.foldlM (resizeKind group request pages previous) .empty
  if pages = 0 then release group request
  pure freed

/-- A first allocation: an empty table, placed when the pools are striped. -/
def create (group : ℕ) (request : String) : EStateM String BlockTables PUnit := do
  let b ← get
  set { b with tables := b.tables.insert request (b.counts.mapValues fun _ => []) }
  if b.rings.items = [] then pure ⟨⟩ else place group request

def resize (group : ℕ) (request : String) (pages previous : ℕ) : EStateM String BlockTables (Dict String ℕ) := do
  let b ← get
  match b.tables.get? request with
  | some _ => resizeTable group request pages previous
  | none =>
    if pages = 0 then pure .empty
    else do
      create group request
      resizeTable group request pages previous

end BlockTables

end HeteroSim.KvBlocks
