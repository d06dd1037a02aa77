import Spool.Queue.Room
import Spool.Report.Page
import Spool.Upload.Basic

/-!
The command: what its arguments ask for, what it prints, and its exit code.
-/

namespace Spool

structure Printed where
  output : List String := []
  errors : List String := []
  exitCode : Nat := 0
  deriving DecidableEq, Repr

namespace Printed

/-- An error with what caused it, the cause last. -/
def failure (chain : List String) : Printed where
  errors := ["Error: " ++ ": ".intercalate chain]
  exitCode := 1

end Printed

inductive Command
  | stop (stop : CommandLine.Stop)
  | refuse (error : DefinitionError)
  /-- The pool that the plan asks for cannot be made. -/
  | abandon (plan : Plan) (abort : Abort)
  | upload (plan : Plan)
  deriving Repr

namespace Command

def ofArguments (processors : Nat) (arguments : List String) : Command :=
  match CommandLine.Arguments.read arguments with
  | .error reason => stop reason
  | .ok a =>
    match Plan.ofArguments processors a with
    | .error e => refuse e
    | .ok plan =>
      match Queue.fault? plan.definition.maxPending with
      | some abort => abandon plan abort
      | none => upload plan

end Command

def CommandLine.Stop.printed (stop : Stop) : Printed :=
  match stop with
  | helpAsked => { output := help, exitCode := stop.exitCode }
  | versionAsked =>
    { output := [s!"{Report.programName} {Report.version}"], exitCode := stop.exitCode }
  | _ => { errors := [s!"error: {stop.message}"], exitCode := stop.exitCode }

def DefinitionError.printed (e : DefinitionError) : Printed :=
  .failure ["Invalid configuration", e.message]

def Plan.header (plan : Plan) : List String :=
  if plan.showProgress then
    Report.header plan.definition.destination plan.definition.workers plan.definition.maxPending
  else []

def Abort.exitCode : Nat := 101

/-- What is printed, behind the header, when the pool cannot be made. -/
def Abort.printed (abort : Abort) : Printed where
  errors := [abort.message]
  exitCode := exitCode

namespace Upload

def result? (u : Upload) : Option UploadEnd :=
  match u.phase with
  | .over result => some result
  | _ => none

def printed (u : Upload) (elapsed : Elapsed) : Printed :=
  match u.result? with
  | none => { exitCode := 1 }
  | some (.finished success) =>
    { output :=
        if u.plan.showProgress then Report.summary { u.progress with elapsed } u.interrupted
        else []
      exitCode := if success then 0 else 1 }
  | some (.notStarted error) =>
    .failure ("Failed to initialize spooler" :: (StartError.worker error).chain)
  | some .unreadable => .failure ["Failed to read file list", Listed.fault]

end Upload

end Spool
