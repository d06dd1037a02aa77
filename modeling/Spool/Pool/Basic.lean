import Spool.Definition
import Spool.Job
import Spool.Queue.Basic
import Spool.StartError

/-!
A pool: workers that take jobs from one queue, and calls of its interface that have not returned.
Every place where a thread can be overtaken by others is a phase of its own. Jobs get a serial
number when they are counted as pending; it tells equal jobs apart and has no other use.
-/

namespace Spool

/-- How many workers, and how many jobs may wait. -/
structure PoolSize where
  workers : Nat
  capacity : Nat
  workers_pos : 0 < workers
  capacity_pos : 0 < capacity
  deriving Repr

def Definition.poolSize (d : Definition) : PoolSize :=
  ⟨d.workers, d.maxPending, d.workers_pos, d.maxPending_pos⟩

inductive Thread
  | worker (id : Nat)
  | caller (id : Nat)
  deriving DecidableEq, Repr

/-- A job that was counted as pending, with the number of jobs counted before it. -/
structure Ticket where
  serial : Nat
  job : Job
  deriving DecidableEq, Repr

inductive Notice
  | copied (source : String) (code : Int)
  | processed (source : String) (code : Int) (hash : String)
  deriving DecidableEq, Repr

def Notice.code : Notice → Int
  | copied _ code => code
  | processed _ code _ => code

inductive Answer
  | returned
  | gaveUp (text : String)
  deriving DecidableEq, Repr

/-- Nobody is told of a termination. -/
def Job.notice? (job : Job) : Option Notice :=
  match job with
  | transfer t => some (.copied t.source job.code)
  | transform t => some (.processed t.source job.code (t.hash.getD ""))
  | termination => none

inductive WorkerPhase
  /-- Inside the queue's get. -/
  | fetching
  /-- The store is at work on the job. -/
  | pushing (ticket : Ticket)
  /-- The result is in the job; the worker is about to count it as executed. -/
  | counting (ticket : Ticket) (success : Bool)
  /-- About to count a failure among the worker's own. -/
  | countingFailure (ticket : Ticket)
  /-- All is recorded; about to hand the job to the pool. -/
  | handing (ticket : Ticket)
  /-- About to count the job among the pool's failures, if it failed. -/
  | testing (ticket : Ticket)
  /-- About to look for a callback. -/
  | dispatching (ticket : Ticket)
  /-- The callback is running and cannot be replaced meanwhile. -/
  | notifying (ticket : Ticket)
  /-- About to count a termination as executed. -/
  | leaving (ticket : Ticket)
  /-- This was the last termination; about to declare the pool torn down. -/
  | tearing (ticket : Ticket)
  /-- About to count the tear-down. -/
  | tallying (ticket : Ticket)
  /-- About to take the job off the pending ones. -/
  | releasing (ticket : Ticket)
  /-- Nothing was pending any more; about to take the drain lock. -/
  | lastOut (ticket : Ticket)
  /-- Holds the drain lock; about to wake those who wait for the drain. -/
  | waking (ticket : Ticket)
  | exited
  deriving DecidableEq, Repr

structure Worker where
  phase : WorkerPhase := .fetching
  executed : Nat := 0
  failed : Nat := 0
  deriving DecidableEq, Repr

inductive Submission
  | transfer (source remote : String)
  | transform (source dir suffix : String)
  deriving DecidableEq, Repr

namespace Submission

def request : Submission → Request
  | transfer .. => .submitTransfer
  | transform .. => .submitTransform

def job (move : Bool) : Submission → Job
  | transfer source remote => .transfer { source, remote, move }
  | transform source dir suffix => .transform { source, dir, suffix, move }

end Submission

/-- What is asked of a running pool. Callbacks are of type `κ`. -/
inductive Call (κ : Type)
  | submit (submission : Submission)
  | endTransaction
  | waitForUpload
  | setCallback (callback : κ)
  | unsetCallback
  | setMoveMode (on : Bool)
  | drop
  deriving DecidableEq, Repr

/-- Why a thread schedules jobs, hence what it does once it has. -/
inductive Goal
  | submit
  | close
  /-- Then every worker is joined. -/
  | drop
  /-- Then the workers that were started are joined and the error is returned. -/
  | abandon (error : WorkerError)
  deriving DecidableEq, Repr

inductive CallPhase (κ : Type)
  /-- Building the pool: about to prepare the next worker's store and start that worker. -/
  | starting (next : Nat)
  /-- About to move the stage to an open transaction. -/
  | opening (submission : Submission)
  /-- About to read the move mode. -/
  | making (submission : Submission)
  /-- About to count the job as pending; so many terminations follow it. -/
  | counting (job : Job) (more : Nat) (goal : Goal)
  /-- Inside the queue's put. -/
  | putting (more : Nat) (goal : Goal)
  /-- About to move the stage to a closed transaction. -/
  | closing (goal : Goal)
  /-- Waiting for the next worker to exit. -/
  | joining (next : Nat) (goal : Goal)
  /-- About to take the drain lock. -/
  | locking
  /-- Holds the drain lock; about to look whether something is pending. -/
  | checking
  /-- Holds the drain lock, has seen something pending; about to sleep. -/
  | dozing
  | asleep
  | registering (callback : κ)
  | clearing
  | switching (on : Bool)
  deriving DecidableEq, Repr

inductive Ending
  | returned
  | aborted (abort : Abort)
  | notStarted (error : WorkerError)
  deriving DecidableEq, Repr

def Call.phase {κ : Type} : Call κ → CallPhase κ
  | submit submission => .opening submission
  | endTransaction => .closing .close
  | waitForUpload => .locking
  | setCallback callback => .registering callback
  | unsetCallback => .clearing
  | setMoveMode on => .switching on
  | drop => .closing .drop

structure Pool (κ : Type) where
  size : PoolSize
  queue : Queue Thread Ticket
  /-- Jobs counted so far, terminations included. -/
  issued : Nat := 0
  /-- Jobs counted but not yet finished. -/
  pending : Nat := 0
  failed : Nat := 0
  terminationsExecuted : Nat := 0
  teardowns : Nat := 0
  lifecycle : Lifecycle := .uninitialized
  callback : Option κ := none
  moveMode : Bool := false
  /-- Who holds the drain lock. -/
  drainLock : Option Thread := none
  workers : List Worker := []
  /-- Calls that have not returned, by the thread that makes them. -/
  calls : List (Nat × CallPhase κ) := []
  /-- Once dropping has begun, nothing more can be asked. -/
  dropped : Bool := false

namespace Pool

variable {κ : Type}

/-- The thread that builds the pool. -/
def builder : Nat := 0

def new (size : PoolSize) : Pool κ where
  size
  queue := { capacity := size.capacity }
  calls := [(builder, .starting 0)]

def call? (p : Pool κ) (c : Nat) : Option (CallPhase κ) :=
  p.calls.lookup c

def setCall (p : Pool κ) (c : Nat) (phase : CallPhase κ) : Pool κ :=
  { p with calls := p.calls.map fun (d, old) => if d = c then (d, phase) else (d, old) }

def endCall (p : Pool κ) (c : Nat) : Pool κ :=
  { p with calls := p.calls.filter (·.1 ≠ c) }

def worker? (p : Pool κ) (w : Nat) : Option Worker :=
  p.workers[w]?

def setWorker (p : Pool κ) (w : Nat) (worker : Worker) : Pool κ :=
  { p with workers := p.workers.set w worker }

def executed (p : Pool κ) : Nat :=
  p.workers.foldr (fun w n => w.executed + n) 0

def isNotifying (p : Pool κ) : Bool :=
  p.workers.any fun w =>
    match w.phase with
    | .notifying _ => true
    | _ => false

def wakeWaiters (p : Pool κ) : Pool κ :=
  { p with calls := p.calls.map fun (c, phase) =>
      match phase with
      | .asleep => (c, .locking)
      | _ => (c, phase) }

end Pool

/-- What happens in a pool that others can know of. -/
inductive Event (κ : Type)
  /-- A call begins. -/
  | called (caller : Nat) (call : Call κ)
  /-- A store is asked for, for the worker with this number. -/
  | asked (worker : Nat)
  | started (worker : Nat)
  /-- A job is counted as pending. -/
  | counted (caller : Nat) (ticket : Ticket)
  | appended (caller : Nat) (ticket : Ticket)
  | removed (worker : Nat) (ticket : Ticket)
  /-- The worker's store is called with a job, for the given kind of push. -/
  | began (worker : Nat) (kind : PushKind) (ticket : Ticket)
  /-- The store's call for a job ended. -/
  | pushed (worker : Nat) (ticket : Ticket) (outcome : Outcome)
  /-- A worker handed a job, with its result, to the pool. -/
  | handed (worker : Nat) (ticket : Ticket)
  /-- A worker looked for a callback. -/
  | looked (worker : Nat) (ticket : Ticket) (found : Option κ)
  /-- A callback is called. -/
  | notified (worker : Nat) (ticket : Ticket) (callback : κ) (notice : Notice)
  /-- The callback's call ended. -/
  | answered (worker : Nat) (ticket : Ticket) (answer : Answer)
  /-- A job is no longer pending. -/
  | released (worker : Nat) (ticket : Ticket)
  | closed (caller : Nat)
  | tornDown (worker : Nat)
  | exited (worker : Nat)
  | joined (caller worker : Nat)
  /-- A callback is in place. -/
  | registered (caller : Nat) (callback : κ)
  /-- No callback is in place any more. -/
  | cleared (caller : Nat)
  /-- A call ends. -/
  | ended (caller : Nat) (ending : Ending)
  deriving DecidableEq, Repr

abbrev Pool.Change (κ : Type) := Pool κ × List (Event κ)

end Spool
