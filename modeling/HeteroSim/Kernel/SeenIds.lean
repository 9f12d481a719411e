/-
The task ids a kernel has seen (`event_kernel.py`): ids submitted one by
one, and namespaces, each a name every one of a shared tuple of base ids is
put behind. A namespace is not expanded. Whether an id is in one is asked of
every length a name has; whether a new one meets the old is asked of the
shorter names by length, and of the longer ones, which follow it in a sorted
list. Sets are walked in an order the caller gives.
-/
import HeteroSim.Dict
import HeteroSim.Raising
import HeteroSim.Words

namespace HeteroSim.Kernel

/-- The ids seen. The cache is keyed by the identity of a tuple. -/
structure SeenHistory where
  seenIds : Finset String
  compactSeenNamespaces : Dict String (List String)
  compactSeenBaseIdSets : Dict String (Finset String)
  compactSeenBaseIdCache : ℕ → Option (List String × Finset String)
  compactSeenPrefixLengths : Finset ℕ
  compactSeenSortedPrefixes : List String

def SeenHistory.init : SeenHistory where
  seenIds := ∅
  compactSeenNamespaces := .empty
  compactSeenBaseIdSets := .empty
  compactSeenBaseIdCache := fun _ => none
  compactSeenPrefixLengths := ∅
  compactSeenSortedPrefixes := []

/-- `_has_seen_task_id` -/
def HasSeenTaskId (s : SeenHistory) (taskId : String) : Prop :=
  taskId ∈ s.seenIds ∨ ∃ n ∈ s.compactSeenPrefixLengths, n < taskId.length ∧
    ∃ baseIds ∈ s.compactSeenBaseIdSets.get? (textTake n taskId), textDrop n taskId ∈ baseIds

instance (s : SeenHistory) (taskId : String) : Decidable (HasSeenTaskId s taskId) := by
  unfold HasSeenTaskId
  infer_instance

/-! ## Collisions -/

/-- The loop of `_compact_seen_collision` over the lengths of names. -/
def shorterCollision (s : SeenHistory) (name : String) (baseIds : List String) : List ℕ → Option String
  | [] => none
  | n :: lengths =>
    if name.length ≤ n then shorterCollision s name baseIds lengths
    else
      match s.compactSeenBaseIdSets.get? (textTake n name) with
      | none => shorterCollision s name baseIds lengths
      | some existing =>
        match baseIds.find? fun b => textDrop n name ++ b ∈ existing with
        | some b => some (name ++ b)
        | none => shorterCollision s name baseIds lengths

/-- Its loop over the sorted names behind the new one, up to the first that
does not begin with it. -/
def longerCollision (s : SeenHistory) (name : String) (baseIdSet : Finset String) : List String → Option String
  | [] => none
  | existing :: names =>
    if ¬Begins name existing then none
    else
      match ((s.compactSeenNamespaces.get? existing).getD []).find?
          fun b => textDrop name.length existing ++ b ∈ baseIdSet with
      | some b => some (name ++ (textDrop name.length existing ++ b))
      | none => longerCollision s name baseIdSet names

/-- `_compact_seen_collision` -/
def compactSeenCollision (s : SeenHistory) (name : String) (baseIds : List String) (baseIdSet : Finset String)
    (lengths : List ℕ) : Option String :=
  match shorterCollision s name baseIds lengths with
  | some taskId => some taskId
  | none => longerCollision s name baseIdSet
      (s.compactSeenSortedPrefixes.drop (bisectLeft (fun q => decide (q ≤ name)) s.compactSeenSortedPrefixes))

/-! ## Base ids -/

/-- The argument: a text or bytes, or a tuple at an address, which is either
the caller's or made from a sequence of another kind. An item that is no
text is `none`. -/
inductive BaseTaskIds
  | text
  | tuple (address : ℕ) (items : List (Option String))
  | sequence (address : ℕ) (items : List (Option String))

/-- The validating loop. -/
def checkBaseIds : List (Option String) → Finset String → Except String (Finset String)
  | [], seen => .ok seen
  | none :: _, _ => .error "compact seen base task ids must be non-empty strings"
  | some b :: items, seen =>
    if b = "" then .error "compact seen base task ids must be non-empty strings"
    else if b ∈ seen then .error "compact seen namespace contains duplicate task ids"
    else checkBaseIds items (insert b seen)

def validatedBaseIds (address : ℕ) (items : List (Option String)) :
    Except String (ℕ × List String × Finset String) := do
  let seen ← checkBaseIds items ∅
  pure (address, items.reduceOption, seen)

/-- `_compact_seen_base_ids`. The cached tuple is the argument when address
and items are the same. -/
def compactSeenBaseIds (s : SeenHistory) : BaseTaskIds → Except String (ℕ × List String × Finset String)
  | .text => .error "compact seen base task ids must be a sequence"
  | .tuple address items =>
    match s.compactSeenBaseIdCache address with
    | some (baseIds, baseIdSet) =>
      if baseIds.map some = items then .ok (address, baseIds, baseIdSet) else validatedBaseIds address items
    | none => validatedBaseIds address items
  | .sequence address items => validatedBaseIds address items

/-! ## Registration -/

/-- `_prepare_compact_seen_namespace`; `order` and `lengths` list the two
sets it walks, and a name that is no text is `none`. -/
def prepareCompactSeenNamespace (s : SeenHistory) (name : Option String) (arg : BaseTaskIds) (order : List String)
    (lengths : List ℕ) : Except String (String × ℕ × List String × Finset String) := do
  match name with
  | none => .error "compact seen namespace prefix must be a non-empty string"
  | some name =>
    refuse (name = "") "compact seen namespace prefix must be a non-empty string"
    refuse (name ∈ s.compactSeenNamespaces.keys) s!"compact seen namespace already registered: {name}"
    let (address, baseIds, baseIdSet) ← compactSeenBaseIds s arg
    match order.find? fun t => decide (Begins name t ∧ textDrop name.length t ∈ baseIdSet) with
    | some taskId => .error s!"duplicate task_id: {taskId}"
    | none =>
      match compactSeenCollision s name baseIds baseIdSet lengths with
      | some taskId => .error s!"duplicate task_id: {taskId}"
      | none => pure (name, address, baseIds, baseIdSet)

/-- `_commit_compact_seen_namespace` -/
def commitCompactSeenNamespace (prepared : String × ℕ × List String × Finset String) (s : SeenHistory) : SeenHistory :=
  let (name, address, baseIds, baseIdSet) := prepared
  { s with
    compactSeenNamespaces := s.compactSeenNamespaces.insert name baseIds
    compactSeenBaseIdSets := s.compactSeenBaseIdSets.insert name baseIdSet
    compactSeenBaseIdCache := Function.update s.compactSeenBaseIdCache address (some (baseIds, baseIdSet))
    compactSeenPrefixLengths := insert name.length s.compactSeenPrefixLengths
    compactSeenSortedPrefixes := s.compactSeenSortedPrefixes.insertIdx
      (bisectLeft (fun q => decide (q ≤ name)) s.compactSeenSortedPrefixes) name }

/-- `_register_compact_seen_namespace` -/
def registerCompactSeenNamespace (name : Option String) (arg : BaseTaskIds) (order : List String)
    (lengths : List ℕ) : EStateM String SeenHistory Unit := do
  let s ← get
  let prepared ← raise (prepareCompactSeenNamespace s name arg order lengths)
  set (commitCompactSeenNamespace prepared s)

/-- The checks of `submit`: `order` lists the set of the chunk's ids, `rest`
is what its other checks come to. -/
def checkChunkIds (s : SeenHistory) (chunk order : List String) (rest : Except String Unit) : Except String Unit := do
  refuse (∃ t ∈ chunk, t = "") "task task_id must be a non-empty string"
  refuse (chunk.toFinset.card ≠ chunk.length) "task chunk contains duplicate task ids"
  match order.find? fun t => decide (HasSeenTaskId s t) with
  | some taskId => .error s!"duplicate task_id: {taskId}"
  | none => rest

/-- What `submit` does to the ids seen. -/
def submitIds (chunk order : List String) (rest : Except String Unit) : EStateM String SeenHistory Unit := do
  let s ← get
  raise (checkChunkIds s chunk order rest)
  set { s with seenIds := s.seenIds ∪ chunk.toFinset }

end HeteroSim.Kernel
