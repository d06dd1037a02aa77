import Spool.Text

/-!
A definition names a storage driver, its description and two endpoints:
`<driver>:<description>,<endpoint>,<endpoint>`. It is obtained by reading such a text, so a
definition in hand has room for at least one pending job and between one and `maxWorkers` workers.
-/

namespace Spool

inductive Driver
  | directory
  | keyValue
  deriving DecidableEq, Repr

namespace Driver

/-- The names a definition may use. Two of them select the key-value store. -/
def names : List (String × Driver) :=
  [("local", .directory), ("riak", .keyValue), ("kv", .keyValue)]

def name : Driver → String
  | .directory => "local"
  | .keyValue => "kv"

def ofName? (text : String) : Option Driver :=
  names.lookup text

end Driver

inductive DefinitionError
  | fieldCount (definition : String) (found : Nat)
  | malformedDriver (field : String)
  | unknownDriver (name : String)
  | noCapacity (value : Nat)
  | workerCount (count most : Nat)
  | notAStore (descriptor : String)
  deriving DecidableEq, Repr

namespace DefinitionError

def message : DefinitionError → String
  | fieldCount definition found =>
    s!"Invalid spooler definition '{definition}': expected 3 comma separated fields, found {found}"
  | malformedDriver field =>
    s!"Invalid spooler driver '{field}': expected <driver>:<description>"
  | unknownDriver name => s!"Unknown spooler driver: {name}"
  | noCapacity value => s!"Invalid max pending jobs {value}: must be at least 1"
  | workerCount count most => s!"Invalid worker count {count}: must be between 1 and {most}"
  | notAStore descriptor => s!"Invalid upstream '{descriptor}'"

end DefinitionError

/-- More workers than this are never started. -/
def maxWorkers : Nat := 512

/-- The worker count on a machine with so many processors, when none is asked for. -/
def defaultWorkers (processors : Nat) : Nat :=
  min (max processors 1) maxWorkers

structure Definition where
  driver : Driver
  /-- Base directory or base URL, taken as written. -/
  description : String
  /-- Endpoint that receives the paths of pushed content. -/
  pathsOut : String
  /-- Endpoint that delivers content digests back. -/
  digestsIn : String
  /-- Capacity of the job queue. -/
  maxPending : Nat
  workers : Nat
  maxPending_pos : 0 < maxPending
  workers_pos : 0 < workers
  workers_le : workers ≤ maxWorkers
  deriving Repr

namespace Definition

/-- The driver named before the first colon, with the text behind that colon. -/
def readDriver (field : String) : Except DefinitionError (Driver × String) :=
  match Text.cutAt ':' field.toList with
  | none => .error (.malformedDriver field)
  | some (name, description) =>
    match Driver.ofName? (String.ofList name) with
    | none => .error (.unknownDriver (String.ofList name))
    | some driver => .ok (driver, String.ofList description)

/-- Reads a definition text. The first fault found is reported: the number of fields, the form of
the first field, the driver's name, the capacity. -/
def read (processors : Nat) (text : String) (maxPending : Nat) :
    Except DefinitionError Definition :=
  match text.toList.splitOn ',' with
  | [first, second, third] =>
    match readDriver (String.ofList first) with
    | .error e => .error e
    | .ok (driver, description) =>
      if capacity : 0 < maxPending then
        .ok {
          driver, description, maxPending
          pathsOut := String.ofList second
          digestsIn := String.ofList third
          workers := defaultWorkers processors
          maxPending_pos := capacity
          workers_pos := Nat.lt_min.mpr ⟨Nat.lt_of_lt_of_le Nat.one_pos (Nat.le_max_right ..), by decide⟩
          workers_le := Nat.min_le_right .. }
      else .error (.noCapacity maxPending)
  | fields => .error (.fieldCount text fields.length)

def withWorkers (d : Definition) (count : Nat) : Except DefinitionError Definition :=
  if h : 0 < count ∧ count ≤ maxWorkers then
    .ok { d with workers := count, workers_pos := h.1, workers_le := h.2 }
  else .error (.workerCount count maxWorkers)

/-- The text a definition is read from, with the driver's own name in front. -/
def render (d : Definition) : String :=
  s!"{d.driver.name}:{d.description},{d.pathsOut},{d.digestsIn}"

def destination (d : Definition) : String :=
  s!"{d.driver.name}:{d.description}"

end Definition

end Spool
