import Spool.Job
import Spool.Queue.Basic
import Spool.Queue.Room

/-!
A queue tried out by one caller that never blocks, one producer and one consumer. After each cue the
producer and the consumer go on as far as they can.
-/

namespace Spool.Rehearsal

inductive Player
  | caller
  | producer
  | consumer
  deriving DecidableEq, Repr

structure QueueScene where
  queue : Queue Player Job
  /-- What the producer still has to put, the job of a put that has not returned not included. -/
  supply : List Job := []
  /-- How many jobs the consumer still has to get. -/
  demand : Nat := 0
  /-- What the consumer got since the last cue, the newest first. -/
  consumed : List Job := []

namespace QueueScene

def start (capacity : Nat) : Except Abort QueueScene :=
  match Queue.fault? capacity with
  | some abort => .error abort
  | none => .ok { queue := { capacity } }

def producing (s : QueueScene) : Bool :=
  (s.queue.putter? .producer).isSome || !s.supply.isEmpty

def consuming (s : QueueScene) : Bool :=
  s.demand != 0

def produce? (s : QueueScene) : Option QueueScene :=
  match s.queue.putter? .producer, s.supply with
  | some _, _ =>
    let woken := if s.queue.isFull then none else s.queue.firstAsleep
    (s.queue.putTurn? .producer woken).map fun (queue, _) => { s with queue }
  | none, job :: supply => some { s with queue := s.queue.beginPut .producer job, supply }
  | none, [] => none

def consume? (s : QueueScene) : Option QueueScene :=
  match s.queue.getter? .consumer with
  | some _ =>
    (s.queue.getTurn? .consumer).map fun (queue, got) =>
      match got with
      | some job => { s with queue, demand := s.demand - 1, consumed := job :: s.consumed }
      | none => { s with queue }
  | none =>
    if s.demand = 0 then none else some { s with queue := s.queue.beginGet .consumer }

/-- Lets producer and consumer go on until neither can move. -/
def settle : (fuel : Nat) → QueueScene → QueueScene
  | 0, s => s
  | fuel + 1, s =>
    match s.produce? with
    | some s => settle fuel s
    | none =>
      match s.consume? with
      | some s => settle fuel s
      | none => s

def patience : Nat := 1000000

/-- Removes the first job on the caller's behalf, if there is one. -/
def take? (s : QueueScene) : Option (QueueScene × Job) :=
  if s.queue.items.isEmpty then none
  else
    match (s.queue.beginGet .caller).getTurn? .caller with
    | some (queue, some job) => some (settle patience { s with queue }, job)
    | _ => none

inductive Cue
  | put (job : Job)
  | get
  | producer (jobs : List Job)
  | consumer (count : Nat)

inductive Reply
  | ok
  | full
  | busy
  | empty
  | started
  | job (job : Job)

/-- Plays one cue. The caller neither puts into a full queue nor gets from an empty one. -/
def play (s : QueueScene) (cue : Cue) : QueueScene × Reply :=
  let s := { s with consumed := [] }
  match cue with
  | .put job =>
    if s.queue.isFull then (s, .full)
    else
      match (s.queue.beginPut .caller job).putTurn? .caller s.queue.firstAsleep with
      | some (queue, _) => (settle patience { s with queue }, .ok)
      | none => (s, .busy)
  | .get =>
    if s.consuming then (s, .busy)
    else
      match s.take? with
      | some (s, job) => (s, .job job)
      | none => (s, .empty)
  | .producer jobs =>
    if s.producing || s.consuming then (s, .busy)
    else (settle patience { s with supply := jobs }, .started)
  | .consumer count =>
    if s.producing || s.consuming then (s, .busy)
    else (settle patience { s with demand := count }, .started)

/-- Everything that is left, and that a blocked producer still puts, in order. -/
def rest : (fuel : Nat) → QueueScene → List Job
  | 0, _ => []
  | fuel + 1, s =>
    match s.take? with
    | some (s, job) => job :: rest fuel s
    | none => []

end QueueScene

end Spool.Rehearsal
