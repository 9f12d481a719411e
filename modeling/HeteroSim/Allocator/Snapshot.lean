/-
Snapshots. `snapshot` lists the live extents in address order;
`from_snapshot` puts what it is given in an order in which targets come
before their aliases, stores it in a new allocator, and rebuilds the indexes
once. The order exists exactly when every alias has its target in the
snapshot and none hangs on itself; what a live allocator lists always has
one, and comes back as the same map.
-/
import HeteroSim.Allocator.Aliases
import HeteroSim.Allocator.FirstFit
import HeteroSim.Arrange

namespace HeteroSim.Allocator

/-- An extent of a snapshot that is a mapping; a missing field is `none` or
has its default. -/
structure SnapshotRecord where
  obsolete : List String := []
  bufferId : Option String
  sizeBytes : Option Int
  generation : Int := 0
  aliasOf : Option String := none
  aliasGeneration : Option Int := none
  baseAddress : Option Int := none
  aliasOffsetBytes : Int := 0
  inferred : Bool := false
  allocationArena : Option String := none

inductive SnapshotItem
  | native (a : PhysicalAllocation)
  | record (r : SnapshotRecord)

structure Snapshot where
  capacityBytes : Int
  alignmentBytes : Int
  workspaceCapacityBytes : Int := 0
  allocations : List SnapshotItem

/-- `snapshot`; without a workspace its key is left out, and read as zero. -/
def snapshot (s : AllocatorState) : Snapshot where
  capacityBytes := s.config.capacityBytes
  alignmentBytes := s.config.alignmentBytes
  workspaceCapacityBytes := s.config.workspaceCapacityBytes
  allocations := s.addressRows.map .native

/-! ## The order of the aliases -/

/-- What the ordering loop reads of an item: its key, and the key it waits for. -/
structure SnapshotEntry where
  key : Key
  need : Option Key
  item : SnapshotItem

/-- The target of an alias; without a generation it has the alias's own. -/
def needOf (generation : Int) (aliasOf : Option String) (aliasGeneration : Option Int) : Option Key :=
  aliasOf.map fun target => (target, aliasGeneration.getD generation)

def SnapshotItem.entry : SnapshotItem → Except String SnapshotEntry
  | .native a => .ok ⟨a.key, needOf a.generation a.aliasOf a.aliasGeneration, .native a⟩
  | .record r =>
    if r.obsolete ≠ [] then
      .error ("allocation record uses size_bytes and generation; unsupported fields: " ++ ", ".intercalate r.obsolete)
    else
      match r.bufferId with
      | none => .error "buffer_id"
      | some bufferId => .ok ⟨(bufferId, r.generation), needOf r.generation r.aliasOf r.aliasGeneration, .record r⟩

/-- The loop over `pending`; its first pass has read every item before any
can be given up. -/
def orderItems (items : List SnapshotItem) : Except String (List SnapshotItem) := do
  let entries ← items.mapM SnapshotItem.entry
  match Arrange.arrange SnapshotEntry.key SnapshotEntry.need entries [] with
  | none => .error "snapshot alias target is missing or aliases form a cycle"
  | some ordered => pure (ordered.map (·.item))

/-! ## The new allocator -/

/-- The extent an item's fields are stored as: an alias that names no
generation becomes a new object, `ident`, that names its own. -/
def nativeItem (a : PhysicalAllocation) (ident : Nat) : PhysicalAllocation :=
  if a.aliasOf.isSome ∧ a.aliasGeneration = none then { a with ident, aliasGeneration := some a.generation } else a

/-- The arguments a record is allocated with. -/
def SnapshotRecord.request (r : SnapshotRecord) (bufferId : String) (size : Int) : Request :=
  { bufferId, sizeBytes := size, generation := r.generation, aliasOf := r.aliasOf
    aliasGeneration := if r.aliasOf.isSome ∧ r.aliasGeneration = none then some r.generation else r.aliasGeneration
    address := r.baseAddress, aliasOffsetBytes := r.aliasOffsetBytes, inferred := r.inferred
    allocationArena := r.allocationArena }

/-- An item enters the new allocator: an extent as it is, a record by `allocate`. -/
def storeItem (item : SnapshotItem) (ident : Nat) (s : AllocatorState) : Except String AllocatorState :=
  match item with
  | .native a => .ok (storeAllocation a.key (nativeItem a ident) s)
  | .record r =>
    match r.sizeBytes, r.bufferId with
    | none, _ => .error "physical allocation requires size_bytes"
    | _, none => .error "buffer_id"
    | some size, some bufferId => do
      let (_, s) ← allocate (r.request bufferId size) ident s
      pure s

/-- The replay, new objects numbered from `ident` on. -/
def storeItems : List SnapshotItem → Nat → AllocatorState → Except String AllocatorState
  | [], _, s => .ok s
  | item :: items, ident, s => do
    let s ← storeItem item ident s
    storeItems items (ident + 1) s

/-- `from_snapshot`; no save is open, so the keys' order makes no before-image. -/
def fromSnapshot (x : Snapshot) (ident : Nat) : Except String AllocatorState := do
  let cfg ← AllocatorConfig.new x.capacityBytes x.alignmentBytes x.workspaceCapacityBytes
  let ordered ← orderItems x.allocations
  let s ← storeItems ordered ident (.init cfg)
  pure (restoreAllocations s.allocations s.allocations.keys s)

/-! ## When there is an order -/

/-- Every alias has its target among the items, by a chain that ends. -/
def TargetsGrounded (entries : List SnapshotEntry) : Prop :=
  Arrange.Grounded SnapshotEntry.key SnapshotEntry.need [] entries

/-- **The loop accepts a snapshot exactly when its alias targets are present
and not circular**, as far as its items can be read at all. -/
theorem orderItems_iff {items : List SnapshotItem} {entries : List SnapshotEntry}
    (h : items.mapM SnapshotItem.entry = .ok entries) :
    (∃ ordered, orderItems items = .ok ordered) ↔ TargetsGrounded entries := by
  rw [TargetsGrounded, ← Arrange.arrange_isSome_iff]
  simp only [orderItems, h, bind, Except.bind]
  split
  · next hnone => simp [hnone]
  · next ordered hsome => simp [hsome, pure, Except.pure]

theorem entries_native : ∀ (rows : List PhysicalAllocation), (rows.map SnapshotItem.native).mapM SnapshotItem.entry =
    .ok (rows.map fun a => ⟨a.key, needOf a.generation a.aliasOf a.aliasGeneration, .native a⟩)
  | [] => rfl
  | a :: rows => by
    rw [List.map_cons, List.mapM_cons, entries_native rows]
    rfl

/-- What an alias of the live map waits for is its target. -/
theorem AliasesOk.need {f : Key → Option PhysicalAllocation} (h : AliasesOk f) {k t : Key} {a : PhysicalAllocation}
    (ha : f k = some a) (ht : needOf a.generation a.aliasOf a.aliasGeneration = some t) :
    a.target = some (t.1, some t.2) := by
  obtain ⟨bufferId, halias, rfl⟩ := Option.map_eq_some_iff.1 ht
  obtain ⟨u, b, hn, -, -⟩ := h.target k a ha (by rw [halias]; exact Option.some_ne_none _)
  obtain ⟨rfl, hgen⟩ : bufferId = u.1 ∧ a.aliasGeneration = some u.2 := by
    simpa [PhysicalAllocation.target, halias] using hn
  rw [hn, hgen]
  rfl

/-- A live map's aliases are grounded. -/
theorem grounded_rows {s : AllocatorState} (hr : RowsFor s.allocations s) (h : AliasesOk s.allocations.get?) :
    TargetsGrounded (s.addressRows.map fun a => ⟨a.key, needOf a.generation a.aliasOf a.aliasGeneration, .native a⟩) := by
  obtain ⟨rank, hrank⟩ := h.acyclic
  refine ⟨fun e => rank e.key, fun e he t ht => .inr ?_⟩
  obtain ⟨a, ha, rfl⟩ := List.mem_map.1 he
  obtain ⟨k, hk⟩ := Dict.mem_values.1 (hr.perm.subset ha)
  obtain rfl := h.keyed k a hk
  have htarget := h.need hk ht
  obtain ⟨u, b, hn, hb, -⟩ := h.target _ a hk (target_isSome htarget)
  obtain rfl : u = t := by simpa [Prod.ext_iff] using hn.symm.trans htarget
  have hmem : b ∈ s.addressRows := hr.perm.symm.subset (Dict.mem_values.2 ⟨u, hb⟩)
  exact ⟨_, List.mem_map_of_mem hmem, h.keyed u b hb, by
    show rank b.key < rank a.key
    rw [h.keyed u b hb]
    exact hrank _ _ ⟨a, hk, htarget⟩⟩

end HeteroSim.Allocator
