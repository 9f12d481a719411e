/-
A point's windows shared by processes that see each other only through the
files of a pass: one primary, any number of helpers, each between two of its
atomic file operations. A process may die between any two, or its window may
fail, and any process may take its next step at any time. Runs and what the
primary collected are kept beside the files for the statements about them.
-/
import HeteroSim.Dict
import HeteroSim.Transitions

namespace HeteroSim.Windows

/-- A saved run of a window. -/
structure Record (C : Type) where
  sampleId : String
  content : C
deriving DecidableEq

/-- A window that was run to its end, and the reservation it ran with. -/
structure Execution (R C : Type) where
  position : ℕ
  reservation : R
  record : Record C

/-- The files of a pass, by position or process, then what happened in it. -/
structure Files (R C : Type) where
  reservation : Option R
  owners : List ℕ
  claims : Dict ℕ ℕ
  records : Dict ℕ (Record C)
  cancels : List ℕ
  limits : List ℤ
  runs : List (Execution R C)
  collected : List (ℕ × Record C)

inductive FileError
  | fileExists | fileNotFound

inductive StopAt
  | limit | list
  | cancel (rest : List ℕ)

/-- The next operation of `_begin_pass`: a primary publishes, a helper waits and loads. -/
inductive BeginAt
  | stop (next : StopAt)
  | publish | wait | load | name

/-- The next operation of `_execute`. -/
inductive ExecuteAt (C : Type)
  | limit | claim | check | unlink | execute
  | publish (record : Record C)
  | exceeded
  | stop (next : StopAt)

/-- The next operation of `_collect`. -/
inductive CollectAt (C : Type)
  | look | owner
  | alive (owner : ℕ)
  | unlink | claim | execute
  | publish (record : Record C)
  | read

inductive Phase (C : Type)
  | outside
  | begin (next : BeginAt)
  | window (position : ℕ) (next : ExecuteAt C)
  | collect (position : ℕ) (next : CollectAt C)
  /-- Left with an error that the code raises. -/
  | stopped
  /-- Left with a file error that the code does not expect. -/
  | crashed

structure Process (R C : Type) where
  phase : Phase C
  passes : ℕ
  /-- The reservation its windows run with. -/
  prepared : R

/-- What a step does besides its file operation. -/
inductive Outcome (R C : Type)
  | go
  /-- A sample is asked for, with a reservation. -/
  | start (reservation : R)
  /-- The window list ends here, or is left. -/
  | finish | leave
  | done (record : Record C)
  | fail
  /-- A cancellation, a budget or an error that ends the process's walk. -/
  | stop
  | exceed
  /-- The next of the listed claims to cancel. -/
  | pick (index : ℕ)

variable {R C : Type}

namespace Files

def empty : Files R C := ⟨none, [], .empty, .empty, [], [], [], []⟩

/-- `_limit`. -/
def limit (f : Files R C) : Option ℤ := f.limits.min?

def limitBelow (f : Files R C) (position : ℕ) : Bool :=
  match f.limit with
  | none => false
  | some m => m < position

/-- `_claim`: the claim is a link to the process's own name. -/
def link (f : Files R C) (pid position : ℕ) : Except FileError (Files R C) :=
  if pid ∉ f.owners then .error .fileNotFound
  else if position ∈ f.claims.keys then .error .fileExists
  else .ok { f with claims := f.claims.insert position pid }

def unlinkClaim (f : Files R C) (position : ℕ) : Except FileError (Files R C) :=
  if position ∈ f.claims.keys then .ok { f with claims := f.claims.erase position } else .error .fileNotFound

def publishRecord (f : Files R C) (position : ℕ) (record : Record C) : Files R C :=
  { f with records := f.records.insert position record }

def ran (f : Files R C) (position : ℕ) (reservation : R) (record : Record C) : Files R C :=
  { f with runs := f.runs ++ [⟨position, reservation, record⟩] }

end Files

/-- `_stop_after`: where it goes on, nothing when it has ended. -/
def stopAfter (limit : ℤ) (next : StopAt) (o : Outcome R C) (f : Files R C) : Option (Option StopAt × Files R C) :=
  match next, o with
  | .limit, .go => some (some .list, { f with limits := f.limits.insert limit })
  | .list, .go => some (some (.cancel (f.claims.keys.filter fun position => limit < position)), f)
  | .cancel rest, .pick index => match rest[index]? with
    | some position => some (some (.cancel (rest.eraseIdx index)), { f with cancels := f.cancels.insert position })
    | none => none
  | .cancel [], .go => some (none, f)
  | _, _ => none

def executeStep (pid : ℕ) (reservation : R) (position : ℕ) (next : ExecuteAt C) (o : Outcome R C) (f : Files R C) :
    Option (Phase C × Files R C) :=
  match next, o with
  | .limit, .go =>
    some (if f.limitBelow position then .window (position + 1) .limit else .window position .claim, f)
  | .limit, .stop => some (.stopped, f)
  | .claim, .go => match f.link pid position with
    | .ok f' => some (.window position .check, f')
    | .error .fileExists => some (.window (position + 1) .limit, f)
    | .error .fileNotFound => some (.crashed, f)
  | .check, .go => some (.window position (if f.limitBelow position then .unlink else .execute), f)
  | .execute, .done record => some (.window position (.publish record), f.ran position reservation record)
  | .execute, .fail => some (.window position .unlink, f)
  | .execute, .stop => some (.stopped, f)
  | .unlink, .go => match f.unlinkClaim position with
    | .ok f' => some (.window (position + 1) .limit, f')
    | .error _ => some (.crashed, f)
  | .publish record, .go => some (.window position .exceeded, f.publishRecord position record)
  | .exceeded, .go => some (.window (position + 1) .limit, f)
  | .exceeded, .exceed => some (.window position (.stop .limit), f)
  | .stop next, o => match stopAfter position next o f with
    | some (some next', f') => some (.window position (.stop next'), f')
    | some (none, f') => some (.window (position + 1) .limit, f')
    | none => none
  | _, _ => none

def collectStep (live : ℕ → Bool) (sampleId : ℕ → String) (pid : ℕ) (reservation : R) (position : ℕ)
    (next : CollectAt C) (o : Outcome R C) (f : Files R C) : Option (Phase C × Files R C) :=
  match next, o with
  | .look, .go => some (.collect position (if position ∈ f.records.keys then .read else .owner), f)
  | .look, .leave => some (.outside, f)
  | .owner, .stop => some (.stopped, f)
  | .owner, .go => match f.claims.get? position with
    | some owner => some (.collect position (.alive owner), f)
    | none => some (.collect position .claim, f)
  | .alive owner, .go => some (.collect position (if live owner then .look else .unlink), f)
  | .unlink, .go => some (.collect position .claim, { f with claims := f.claims.erase position })
  | .claim, .go => match f.link pid position with
    | .ok f' => some (.collect position .execute, f')
    | .error .fileExists => some (.collect position .look, f)
    | .error .fileNotFound => some (.crashed, f)
  | .execute, .done record => some (.collect position (.publish record), f.ran position reservation record)
  | .execute, .stop => some (.stopped, f)
  | .publish record, .go => some (.collect position .look, f.publishRecord position record)
  | .read, .go => match f.records.get? position with
    | none => some (.crashed, f)
    | some record =>
      if record.sampleId ≠ sampleId position then some (.stopped, f)
      else some (.collect (position + 1) .look, { f with collected := f.collected ++ [(position, record)] })
  | _, _ => none

/-- One operation of a process on the files of its pass. -/
def Process.step (helper : Bool) (live : ℕ → Bool) (sampleId : ℕ → String) (pid : ℕ) (p : Process R C) (o : Outcome R C)
    (f : Files R C) : Option (Process R C × Files R C) :=
  match p.phase, o with
  | .outside, .go => if helper then some ({ p with phase := .begin .wait, passes := p.passes + 1 }, f) else none
  | .outside, .start reservation =>
    if helper then none
    else if p.passes = 0 then some (⟨.begin .publish, 1, reservation⟩, f)
    else some (⟨.begin (.stop .limit), p.passes, reservation⟩, f)
  | .begin (.stop next), o => match stopAfter (-1) next o f with
    | some (some next', f') => some ({ p with phase := .begin (.stop next') }, f')
    | some (none, f') => some ({ p with phase := .begin .publish, passes := p.passes + 1 }, f')
    | none => none
  | .begin .publish, .go => some ({ p with phase := .begin .name }, { f with reservation := some p.prepared })
  | .begin .wait, .go => if f.reservation.isSome then some ({ p with phase := .begin .load }, f) else none
  | .begin .wait, .stop => some ({ p with phase := .stopped }, f)
  | .begin .load, .go => match f.reservation with
    | some reservation => some ({ p with phase := .begin .name, prepared := reservation }, f)
    | none => some ({ p with phase := .crashed }, f)
  | .begin .name, .go => some ({ p with phase := .window 0 .limit }, { f with owners := f.owners.insert pid })
  | .window _ .limit, .finish => some ({ p with phase := if helper then .outside else .collect 0 .look }, f)
  | .window _ .limit, .leave => if helper then none else some ({ p with phase := .outside }, f)
  | .window position next, o =>
    (executeStep pid p.prepared position next o f).map fun r => ({ p with phase := r.1 }, r.2)
  | .collect position next, o =>
    (collectStep live sampleId pid p.prepared position next o f).map fun r => ({ p with phase := r.1 }, r.2)
  | _, _ => none

/-! ## The processes together -/

structure System (R C : Type) where
  processes : ℕ → Process R C
  alive : ℕ → Bool
  files : ℕ → Files R C

inductive Event (R C : Type)
  | step (pid : ℕ) (o : Outcome R C)
  | die (pid : ℕ)

variable (primary : ℕ) (sampleId : ℕ → String)

/-- A live process takes its next step in its pass, or a process dies. -/
def System.next (s : System R C) : Event R C → Option (System R C)
  | .step pid o =>
    let p := s.processes pid
    if s.alive pid then
      (p.step (pid ≠ primary) s.alive sampleId pid o (s.files p.passes)).map fun r =>
        { s with
          processes := Function.update s.processes pid r.1
          files := Function.update s.files p.passes r.2 }
    else none
  | .die pid => some { s with alive := Function.update s.alive pid false }

/-- Nobody has begun a pass. -/
def Starts (s : System R C) : Prop :=
  (∀ pid, (s.processes pid).phase = .outside ∧ (s.processes pid).passes = 0) ∧ ∀ k, s.files k = .empty

end HeteroSim.Windows
