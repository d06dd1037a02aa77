import Spool.CommandLine.Option
import Spool.Text

/-!
Reading arguments from left to right. Values are collected and checked only when something else
comes after them; an unknown option, or a switch with a value, is refused at once.
-/

namespace Spool.CommandLine

structure Options where
  switches : List Switch := []
  remoteDir : Option String := none
  suffix : Option String := none
  maxPending : Option Nat := none
  workers : Option Nat := none
  deriving DecidableEq, Repr

/-- Numbers that an option may give are below this. -/
def countBound : Nat := 18446744073709551616

/-- A number in ASCII digits, with or without a plus sign in front. -/
def readCount? (text : List Char) : Option Nat :=
  let digits : List Char :=
    match text with
    | '+' :: rest => rest
    | _ => text
  let n := digits.foldl (fun n c => 10 * n + (c.toNat - '0'.toNat)) 0
  if digits ≠ [] ∧ digits.all (·.isDigit) ∧ n < countBound then some n else none

namespace Options

def has (o : Options) : Setting → Bool
  | .remoteDir => o.remoteDir.isSome
  | .suffix => o.suffix.isSome
  | .maxPending => o.maxPending.isSome
  | .workers => o.workers.isSome

def give (o : Options) (s : Setting) (text : String) : Except Stop Options :=
  if o.has s then .error .repeated
  else
    let count : Except Stop Nat := (readCount? text.toList).elim (.error .notANumber) .ok
    match s with
    | .remoteDir => .ok { o with remoteDir := some text }
    | .suffix => .ok { o with suffix := some text }
    | .maxPending => count.map fun n => { o with maxPending := some n }
    | .workers => count.map fun n => { o with workers := some n }

end Options

structure Arguments where
  definition : String
  files : List String
  options : Options
  deriving DecidableEq, Repr

inductive Collected
  | nothing
  | setting (s : Setting) (value : Option String)
  /-- The last one first. -/
  | files (names : List String)
  deriving DecidableEq, Repr

structure Reading where
  definition : Option String := none
  files : List String := []
  options : Options := {}
  collected : Collected := .nothing
  /-- Nothing is an option any more. -/
  optionsEnded : Bool := false
  deriving DecidableEq, Repr

namespace Reading

def close (r : Reading) : Except Stop Reading :=
  match r.collected with
  | .nothing => .ok r
  | .setting _ none => .error .missingValue
  | .setting s (some text) =>
    (r.options.give s text).map fun options => { r with options, collected := .nothing }
  | .files names =>
    if names.any (·.isEmpty) then .error .missingValue
    else .ok { r with files := r.files ++ names.reverse, collected := .nothing }

def switchOn (r : Reading) (s : Switch) : Except Stop Reading := do
  let r ← r.close
  match s with
  | .help => .error .helpAsked
  | .version => .error .versionAsked
  | s =>
    if s ∈ r.options.switches then .error .repeated
    else .ok { r with options.switches := s :: r.options.switches }

def begin (r : Reading) (s : Setting) (attached : Option (List Char)) : Except Stop Reading := do
  let r ← r.close
  match attached with
  | none => .ok { r with collected := .setting s none }
  | some text => close { r with collected := .setting s (some (String.ofList text)) }

def long (r : Reading) (name : List Char) (value : Option (List Char)) : Except Stop Reading :=
  match longNames.lookup (String.ofList name) with
  | none => .error .unknownOption
  | some (.switch s) => if value.isSome then .error .unwantedValue else r.switchOn s
  | some (.setting s) => r.begin s value

/-- The value that follows a short setting in the same argument. -/
def attachedValue : List Char → Option (List Char)
  | [] => none
  | '=' :: text => some text
  | text => some text

def short (r : Reading) : List Char → Except Stop Reading
  | [] => .ok r
  | c :: rest =>
    match shortNames.lookup c with
    | none => .error .unknownOption
    | some (.switch s) =>
      match r.switchOn s with
      | .ok r => r.short rest
      | .error stop => .error stop
    | some (.setting s) => r.begin s (attachedValue rest)

/-- The first is the definition, all others are files. -/
def positional (r : Reading) (text : String) : Except Stop Reading :=
  match r.definition, r.collected with
  | some _, .files names => .ok { r with collected := .files (text :: names) }
  | some _, _ => r.close.map fun r => { r with collected := .files [text] }
  | none, _ => r.close.map fun r => { r with definition := some text }

def word (r : Reading) (text : String) : Except Stop Reading :=
  match r.collected with
  | .setting s none => .ok { r with collected := .setting s (some text) }
  | _ => r.positional text

def next (r : Reading) (argument : String) : Except Stop Reading :=
  if r.optionsEnded then r.positional argument
  else
    match argument.toList with
    | ['-', '-'] => .ok { r with optionsEnded := true }
    | '-' :: '-' :: body =>
      match Text.cutAt '=' body with
      | some (name, value) => r.long name (some value)
      | none => r.long body none
    | '-' :: c :: cluster => r.short (c :: cluster)
    | _ => r.word argument

end Reading

def Arguments.read (arguments : List String) : Except Stop Arguments := do
  let r ← arguments.foldlM Reading.next {}
  let r ← r.close
  match r.definition with
  | none => .error .noDefinition
  | some definition => .ok { definition, files := r.files, options := r.options }

end Spool.CommandLine
