/-
The ledger of retained KV rows (`retained_kv_state.py`): each slot holds the
rows its last request left, or those its owner has committed. A call that
raises leaves the ledger as it was. Slots and requests are any identities;
`accepted` records the calls that did not raise.
-/
import HeteroSim.Dict
import HeteroSim.Raising

namespace HeteroSim.RetainedKv

variable {R S : Type} [DecidableEq R] [DecidableEq S]

/-- `(request, phase, context, count)` -/
structure Item (R : Type) where
  request : R
  phase : String
  context : ℤ
  count : ℤ
deriving DecidableEq

structure RetainedKVState (R S : Type) [DecidableEq R] [DecidableEq S] where
  rows : Dict S ℤ
  requestSlots : Dict R S
  shapes : Dict R (ℤ × ℤ)
  slotCapacity : ℤ
  capacity : ℤ
  owners : Dict S R
  prepared : Finset R
  completed : Finset R
  invalidReason : Option String

/-- `_require` -/
def require (ok : Prop) [Decidable ok] (reason : String) : Except String Unit := refuse (¬ok) ("retained KV: " ++ reason)

/-- `d[key]` -/
def lookup {κ ν : Type} [DecidableEq κ] (d : Dict κ ν) (key : κ) : Except String ν :=
  match d.get? key with
  | some value => .ok value
  | none => .error "KeyError"

namespace RetainedKVState

/-- `_check` -/
def check (s : RetainedKVState R S) (rows : Dict S ℤ) : Except String Unit := do
  require (s.invalidReason = none) ("invalidated lifecycle: " ++ s.invalidReason.getD "")
  require (∀ n ∈ rows.values, 0 ≤ n ∧ n ≤ s.slotCapacity) "slot capacity exceeded"
  require (rows.values.sum ≤ s.capacity) "occupied rows exceed native capacity"

/-- `__init__` -/
def new (rows : Dict S ℤ) (requestSlots : Dict R S) (shapes : Dict R (ℤ × ℤ)) (slotCapacity capacity : ℤ) :
    Except String (RetainedKVState R S) := do
  let s : RetainedKVState R S := ⟨rows, requestSlots, shapes, slotCapacity, capacity, .empty, ∅, ∅, none⟩
  s.check s.rows
  .ok s

/-- `mark_invalid` -/
def markInvalid (reason : String) (s : RetainedKVState R S) : RetainedKVState R S :=
  { s with invalidReason := some (s.invalidReason.getD reason) }

def admitRequest (request : R) (s : RetainedKVState R S) : Except String (RetainedKVState R S) := do
  s.check s.rows
  require (request ∈ s.requestSlots.keys ∧ request ∉ s.completed) "unknown/completed request"
  let slot ← lookup s.requestSlots request
  require (∀ owner ∈ s.owners.get? slot, owner = request) "assigned slot still active"
  .ok { s with owners := s.owners.insert slot request }

/-- `begin_prompt`: the slot's rows go, once for each request. -/
def beginPrompt (request : R) (s : RetainedKVState R S) : Except String (RetainedKVState R S) := do
  s.check s.rows
  let slot ← lookup s.requestSlots request
  require (s.owners.get? slot = some request) "prompt without slot admission"
  .ok (if request ∈ s.prepared then s
    else { s with rows := s.rows.insert slot 0, prepared := insert request s.prepared })

/-- One item of a cohort; beside the rows go the requests seen. -/
def projectItem (s : RetainedKVState R S) (acc : Dict S ℤ × Finset R) (item : Item R) :
    Except String (Dict S ℤ × Finset R) := do
  require (item.request ∉ acc.2) "duplicate request in physical cohort"
  require (item.request ∈ s.requestSlots.keys) "unknown request"
  let slot ← lookup s.requestSlots item.request
  require (s.owners.get? slot = some item.request ∧ item.request ∈ s.prepared) "rows before prompt clear"
  require ((item.phase = "prefill" ∨ item.phase = "decode") ∧ 0 < item.count) "nonordinary append"
  require (item.phase ≠ "decode" ∨ item.count = 1) "nonordinary decode"
  let present ← lookup acc.1 slot
  require (present = item.context) "materialized context mismatch"
  .ok (acc.1.insert slot (present + item.count), insert item.request acc.2)

/-- `projected_rows` -/
def projectedRows (items : List (Item R)) (s : RetainedKVState R S) : Except String (Dict S ℤ) := do
  s.check s.rows
  let projected ← items.foldlM s.projectItem (s.rows, ∅)
  s.check projected.1
  .ok projected.1

def commit (s : RetainedKVState R S) (item : Item R) : Except String (RetainedKVState R S) := do
  let rows ← s.projectedRows [item]
  .ok { s with rows := rows }

def finish (request : R) (s : RetainedKVState R S) : Except String (RetainedKVState R S) := do
  s.check s.rows
  let slot ← lookup s.requestSlots request
  let shape ← lookup s.shapes request
  require (s.owners.get? slot = some request ∧ request ∈ s.prepared ∧ s.rows.get? slot = some (shape.1 + shape.2 - 1))
    "finish without successful P+O-1 materialization"
  .ok { s with owners := s.owners.erase slot, completed := insert request s.completed }

end RetainedKVState

/-! ## Runs -/

inductive Call (R : Type)
  | admitRequest (request : R)
  | beginPrompt (request : R)
  | projectedRows (items : List (Item R))
  | commit (item : Item R)
  | finish (request : R)
  | markInvalid (reason : String)
deriving DecidableEq

def perform (s : RetainedKVState R S) : Call R → Except String (RetainedKVState R S)
  | .admitRequest request => s.admitRequest request
  | .beginPrompt request => s.beginPrompt request
  | .projectedRows items => (s.projectedRows items).map fun _ => s
  | .commit item => s.commit item
  | .finish request => s.finish request
  | .markInvalid reason => .ok (s.markInvalid reason)

/-- A ledger and the calls it has accepted. -/
structure Reached (R S : Type) [DecidableEq R] [DecidableEq S] where
  state : RetainedKVState R S
  accepted : List (Call R)

def exec (x : Reached R S) (call : Call R) : Reached R S :=
  match perform x.state call with
  | .ok s => ⟨s, x.accepted ++ [call]⟩
  | .error _ => x

def run (s : RetainedKVState R S) (calls : List (Call R)) : Reached R S := calls.foldl exec ⟨s, []⟩

/-- The rows a call commits for the request. -/
def Call.rowsFor (request : R) : Call R → ℤ
  | .commit item => if item.request = request then item.count else 0
  | _ => 0

/-- The rows committed for the request since its `begin_prompt`. -/
def rowsSince (request : R) (accepted : List (Call R)) : ℤ :=
  ((accepted.dropWhile (· ≠ .beginPrompt request)).map (Call.rowsFor request)).sum

end HeteroSim.RetainedKv
