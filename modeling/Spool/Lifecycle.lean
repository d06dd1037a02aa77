/-!
The stages of a pool, in the order in which they can be reached.
-/

namespace Spool

inductive Lifecycle
  | uninitialized
  | initialized
  | transactionOpen
  | transactionClosed
  | tornDown
  deriving DecidableEq, Repr

namespace Lifecycle

/-- Jobs may be submitted before the transaction is closed, and only then. -/
def acceptsJobs : Lifecycle → Bool
  | initialized | transactionOpen => true
  | uninitialized | transactionClosed | tornDown => false

def name : Lifecycle → String
  | uninitialized => "Uninitialized"
  | initialized => "Initialized"
  | transactionOpen => "TransactionOpen"
  | transactionClosed => "TransactionClosed"
  | tornDown => "TornDown"

end Lifecycle

end Spool
