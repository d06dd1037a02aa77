import Spool.Job
import Spool.Text

/-!
Scripted stores: what a store is told to do with a job, so that a pool can be tried out without one.
-/

namespace Spool

inductive Script
  /-- Succeeds; the digest is made up from the source path. -/
  | succeed
  | hash (given : String)
  | io (errno : Int)
  | ioOther (reason : String)
  | status (code : Nat)
  | unreachable (reason : String)
  | compression (reason : String)
  | giveUp (text : String)
  deriving DecidableEq, Repr

namespace Script

def error? (source key : String) : Script → Option PushError
  | .io errno => some (.io source (.system errno))
  | .ioOther reason => some (.io source (.other reason))
  | .status code => some (.refused key code)
  | .unreachable reason => some (.unreachable key reason)
  | .compression reason => some (.compression source reason)
  | .succeed | .hash _ | .giveUp _ => none

def outcome (source key : String) (script : Script) : Outcome :=
  match script with
  | .hash given => .stored given
  | .giveUp text => .gaveUp text
  | _ =>
    match script.error? source key with
    | some e => .failed e
    | none => .stored ("hash:" ++ source)

def play (script : Script) : Job → Outcome
  | .transfer job => script.outcome job.source job.remote
  | .transform job => script.outcome job.source job.dir
  | .termination => .stored ""

/-- Without a script the source's name decides. -/
def ofName (source : String) : Script :=
  if Text.holds "boom".toList source.toList then giveUp s!"gave up on {source}"
  else if Text.holds "fail".toList source.toList then io 5
  else succeed

end Script

end Spool
