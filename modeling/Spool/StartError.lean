import Spool.Definition
import Spool.PushError

/-!
Why a pool cannot be started or stopped: its definition is refused, or one of its workers fails.
-/

namespace Spool

inductive WorkerError
  | notSpawned (worker : Nat) (reason : String)
  | noStore (worker : Nat) (cause : PushError)
  | gaveUp (worker : Nat) (message : String)
  deriving DecidableEq, Repr

namespace WorkerError

def message : WorkerError → String
  | notSpawned worker reason => s!"Failed to spawn worker {worker}: {reason}"
  | noStore worker cause => s!"Failed to initialize backend for worker {worker}: {cause.message}"
  | gaveUp worker message => s!"Worker {worker} panicked: {message}"

def chain (e : WorkerError) : List String :=
  match e with
  | noStore _ cause => e.message :: cause.chain
  | _ => [e.message]

end WorkerError

inductive StartError
  | definition (cause : DefinitionError)
  | worker (cause : WorkerError)
  deriving DecidableEq, Repr

namespace StartError

def message : StartError → String
  | definition cause => s!"Definition error: {cause.message}"
  | worker cause => s!"Worker error: {cause.message}"

def chain (e : StartError) : List String :=
  match e with
  | definition cause => [e.message, cause.message]
  | worker cause => e.message :: cause.chain

end StartError

end Spool
