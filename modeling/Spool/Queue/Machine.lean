import Spool.Queue.Basic

/-!
The queue as a machine: any thread may begin a call or take its turn at any time. What happens is
recorded, so that the order of additions and removals can be stated.
-/

namespace Spool.Queue

variable {ι α : Type} [DecidableEq ι]

inductive Move (ι α : Type)
  | beginPut (thread : ι) (item : α)
  | beginGet (thread : ι)
  | put (thread : ι) (woken : Option ι)
  | get (thread : ι)
  | rouse (thread : ι)

inductive Event (ι α : Type)
  | appended (thread : ι) (item : α)
  /-- A put that has just arrived found the queue full. -/
  | heldBack (thread : ι)
  | removed (thread : ι) (item : α)
  deriving DecidableEq, Repr

def step? (q : Queue ι α) : Move ι α → Option (Queue ι α × List (Event ι α))
  | .beginPut i item => if q.isBusy i then none else some (q.beginPut i item, [])
  | .beginGet i => if q.isBusy i then none else some (q.beginGet i, [])
  | .put i woken =>
    match q.putter? i with
    | none => none
    | some p =>
      match q.putTurn? i woken with
      | none => none
      | some (next, true) => some (next, [.appended i p.item])
      | some (next, false) => some (next, if p.phase = .arriving then [.heldBack i] else [])
  | .get i =>
    match q.getTurn? i with
    | none => none
    | some (next, some item) => some (next, [.removed i item])
    | some (next, none) => some (next, [])
  | .rouse i => (q.rouse? i).map (·, [])

end Spool.Queue
