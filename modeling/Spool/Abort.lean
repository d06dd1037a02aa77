import Spool.Lifecycle

/-!
Calls that are abandoned instead of returning: a caller broke a rule of the interface, or a store
or a callback gave up in the middle of its work.
-/

namespace Spool

/-- What can be asked of a pool that its stage may forbid. -/
inductive Request
  | submitTransfer
  | submitTransform
  | endTransaction
  deriving DecidableEq, Repr

def Request.name : Request → String
  | submitTransfer => "submit_transfer"
  | submitTransform => "submit_transform"
  | endTransaction => "end_of_transaction"

inductive PushKind
  | transfer
  | transform
  deriving DecidableEq, Repr

def PushKind.name : PushKind → String
  | transfer => "transfer"
  | transform => "transform"

inductive Abort
  | completedTwice (kind : PushKind) (source : String)
  | noCapacity
  | capacityOverflow
  | wrongStage (request : Request) (stage : Lifecycle)
  | callbackTaken
  | gaveUp (text : String)
  deriving DecidableEq, Repr

def Abort.message : Abort → String
  | completedTwice kind source => s!"{kind.name} job for '{source}' completed twice"
  | noCapacity => "job queue capacity must be at least 1"
  | capacityOverflow => "capacity overflow"
  | wrongStage request stage => s!"{request.name} called on spooler in state {stage.name}"
  | callbackTaken => "spooler callback already registered"
  | gaveUp text => text

end Spool
