import Spool.Abort

/-!
Which queues of jobs can be made. A queue sets aside room for all the jobs it may hold, so it must
be able to hold one, and the room must not be more than can be addressed.
-/

namespace Spool.Queue

def jobRoom : Nat := 112

def maxRoom : Nat := 0x7fffffffffffffff

/-- Why no queue of jobs with this capacity can be made, if none can. -/
def fault? (capacity : Nat) : Option Abort :=
  if capacity = 0 then some .noCapacity
  else if maxRoom < capacity * jobRoom then some .capacityOverflow
  else none

end Spool.Queue
