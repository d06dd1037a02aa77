import Spool.Errno

/-!
Why a push failed, the code reported for it, and its text. A code taken from the operating system
or from a store is passed on as it is; every other failure has code -1.
-/

namespace Spool

/-- Why a file operation failed: the system refused it, or it was never tried. -/
inductive IoError
  | system (errno : Int)
  | other (reason : String)
  deriving DecidableEq, Repr

namespace IoError

def errno? : IoError → Option Int
  | system errno => some errno
  | other _ => none

def message : IoError → String
  | system errno => s!"{Errno.text errno} (os error {errno})"
  | other reason => reason

end IoError

inductive PushError
  | io (path : String) (cause : IoError)
  | refused (key : String) (status : Nat)
  | unreachable (key reason : String)
  | compression (path reason : String)
  deriving DecidableEq, Repr

namespace PushError

def code : PushError → Int
  | io _ cause => cause.errno?.getD (-1)
  | refused _ status => status
  | unreachable .. => -1
  | compression .. => -1

def message : PushError → String
  | io path cause => s!"I/O error on '{path}': {cause.message}"
  | refused key status => s!"Remote store rejected '{key}' with status {status}"
  | unreachable key reason => s!"Remote store request for '{key}' failed: {reason}"
  | compression path reason => s!"Failed to compress '{path}': {reason}"

def chain (e : PushError) : List String :=
  match e with
  | io _ cause => [e.message, cause.message]
  | _ => [e.message]

end PushError

end Spool
