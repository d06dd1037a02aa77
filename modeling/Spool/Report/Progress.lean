/-!
How far an upload has come: jobs submitted, finished and failed, the size of their sources, and the
time that has passed.
-/

namespace Spool

structure Elapsed where
  seconds : Nat := 0
  nanos : Nat := 0
  deriving DecidableEq, Repr

namespace Elapsed

def nanosPerSecond : Nat := 1000000000

/-- The time in seconds. Each part is rounded on its own, then their quotient and sum. -/
def toFloat (t : Elapsed) : Float :=
  let seconds := t.seconds + t.nanos / nanosPerSecond
  let nanos := t.nanos % nanosPerSecond
  seconds.toUInt64.toFloat + nanos.toUInt64.toFloat / nanosPerSecond.toUInt64.toFloat

end Elapsed

structure Progress where
  submitted : Nat := 0
  /-- Jobs that finished, successfully or not. -/
  completed : Nat := 0
  failed : Nat := 0
  /-- Size of the sources of submitted jobs. -/
  bytes : Nat := 0
  elapsed : Elapsed := {}
  deriving DecidableEq, Repr

namespace Progress

def filesPerSecond (p : Progress) : Float :=
  let seconds := p.elapsed.toFloat
  if seconds > 0 then p.completed.toUInt64.toFloat / seconds else 0

/-- Jobs submitted but not finished; none when more finished than were submitted. -/
def inFlight (p : Progress) : Nat :=
  p.submitted - p.completed

def finishOne (p : Progress) (failed : Bool) : Progress :=
  { p with completed := p.completed + 1, failed := if failed then p.failed + 1 else p.failed }

end Progress

end Spool
