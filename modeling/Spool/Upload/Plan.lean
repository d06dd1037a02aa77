import Spool.CommandLine.Arguments
import Spool.Definition
import Spool.Disk.Path
import Spool.Pool.Basic
import Spool.Upload.Listing

/-!
What an upload is to do: its definition, its files, and how each file is submitted.
-/

namespace Spool

structure Plan where
  definition : Definition
  /-- Files named on the command line. -/
  files : List String
  /-- Files are packed and stored under their digest instead of copied. -/
  process : Bool
  /-- Directory of packed files, or in front of copied ones. -/
  remoteDir : String
  suffix : String
  move : Bool
  showProgress : Bool
  verbose : Bool
  deriving Repr

namespace Plan

def defaultRemoteDir : String := "data"

def defaultMaxPending : Nat := 1000

def ofArguments (processors : Nat) (a : CommandLine.Arguments) : Except DefinitionError Plan := do
  let o := a.options
  let definition ←
    Definition.read processors a.definition (o.maxPending.getD defaultMaxPending)
  let definition ← definition.withWorkers (o.workers.getD (defaultWorkers processors))
  return {
    definition
    files := a.files
    process := o.switches.contains .process
    remoteDir := o.remoteDir.getD defaultRemoteDir
    suffix := o.suffix.getD ""
    move := o.switches.contains .move
    showProgress := !o.switches.contains .quiet
    verbose := o.switches.contains .verbose }

/-- Where a copied file goes: its name behind the remote directory. -/
def remotePath (p : Plan) (file : String) : String :=
  let name := (Path.fileName? file).getD ""
  match Text.dropEndSlashes p.remoteDir.toList with
  | [] => name
  | dir => String.ofList (dir ++ '/' :: name.toList)

/-- Files are listed on standard input when none is named. -/
def readsInput (p : Plan) : Bool := p.files.isEmpty

def listed (p : Plan) (input : List UInt8) : List Listed :=
  if p.readsInput then Listed.ofBytes input else p.files.map .file

def submission (p : Plan) (file : String) : Submission :=
  if p.process then .transform file p.remoteDir p.suffix
  else .transfer file (p.remotePath file)

end Plan

end Spool
