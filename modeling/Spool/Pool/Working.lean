import Spool.Pool.Basic

/-!
What a worker does: it fetches a job, has it executed, records the result, hands the job to the
pool, which counts failures and calls the callback, and takes the job off the pending ones. A
termination is not executed; the worker leaves after it, and the last one tears the pool down.
-/

namespace Spool.Pool

variable {κ : Type}

def proceed (p : Pool κ) (w : Nat) (worker : Worker) (phase : WorkerPhase) : Pool κ :=
  p.setWorker w { worker with phase }

/-- The worker is done with a job: it fetches the next one, or exits after a termination. -/
def nextRound (p : Pool κ) (w : Nat) (worker : Worker) (ticket : Ticket) : Change κ :=
  if ticket.job.isTermination then (p.proceed w worker .exited, [.exited w])
  else
    ({ p.proceed w worker .fetching with queue := p.queue.beginGet (.worker w) }, [])

def fetch? (p : Pool κ) (w : Nat) (worker : Worker) : Option (Change κ) :=
  match p.queue.getTurn? (.worker w) with
  | none => none
  | some (queue, none) => some ({ p with queue }, [])
  | some (queue, some ticket) =>
    match ticket.job.push? with
    | none => some ({ p with queue }.proceed w worker (.handing ticket), [.removed w ticket])
    | some kind =>
      some ({ p with queue }.proceed w worker (.pushing ticket),
        [.removed w ticket, .began w kind ticket])

/-- Looks for a callback; it is not called for a termination. -/
def dispatch (p : Pool κ) (w : Nat) (worker : Worker) (ticket : Ticket) : Change κ :=
  match p.callback, ticket.job.notice? with
  | some callback, some notice =>
    (p.proceed w worker (.notifying ticket),
      [.looked w ticket p.callback, .notified w ticket callback notice])
  | _, _ =>
    let phase := if ticket.job.isTermination then .leaving ticket else .releasing ticket
    (p.proceed w worker phase, [.looked w ticket p.callback])

def workerStep? (p : Pool κ) (w : Nat) : Option (Change κ) :=
  match p.worker? w with
  | none => none
  | some worker =>
    match worker.phase with
    | .fetching => p.fetch? w worker
    | .counting ticket success =>
      let counted := { worker with executed := worker.executed + 1 }
      let phase := if success then .handing ticket else .countingFailure ticket
      some (p.proceed w counted phase, [])
    | .countingFailure ticket =>
      some (p.proceed w { worker with failed := worker.failed + 1 } (.handing ticket), [])
    | .handing ticket => some (p.proceed w worker (.testing ticket), [.handed w ticket])
    | .testing ticket =>
      let failed := if ticket.job.isSuccessful then p.failed else p.failed + 1
      some ({ p with failed }.proceed w worker (.dispatching ticket), [])
    | .dispatching ticket => some (p.dispatch w worker ticket)
    | .leaving ticket =>
      let count := p.terminationsExecuted + 1
      let phase := if count = p.size.workers then .tearing ticket else .releasing ticket
      some ({ p with terminationsExecuted := count }.proceed w worker phase, [])
    | .tearing ticket =>
      some ({ p with lifecycle := .tornDown }.proceed w worker (.tallying ticket), [.tornDown w])
    | .tallying ticket =>
      some ({ p with teardowns := p.teardowns + 1 }.proceed w worker (.releasing ticket), [])
    | .releasing ticket =>
      let left := { p with pending := p.pending - 1 }
      if p.pending = 1 then some (left.proceed w worker (.lastOut ticket), [.released w ticket])
      else
        let (next, more) := left.nextRound w worker ticket
        some (next, .released w ticket :: more)
    | .lastOut ticket =>
      if p.drainLock.isNone then
        some ({ p with drainLock := some (.worker w) }.proceed w worker (.waking ticket), [])
      else none
    | .waking ticket =>
      some ({ p with drainLock := none }.wakeWaiters.nextRound w worker ticket)
    | .pushing _ | .notifying _ | .exited => none

/-- The store's call for the worker's job ends. -/
def pushed? (p : Pool κ) (w : Nat) (outcome : Outcome) : Option (Change κ) :=
  match p.worker? w with
  | some worker =>
    match worker.phase with
    | .pushing ticket =>
      let (job, success) := ticket.job.settle outcome
      some (p.proceed w worker (.counting { ticket with job } success),
        [.pushed w ticket outcome])
    | _ => none
  | none => none

/-- The callback ends, by returning or not: the worker goes on in either case. -/
def notified? (p : Pool κ) (w : Nat) (answer : Answer) : Option (Change κ) :=
  match p.worker? w with
  | some worker =>
    match worker.phase with
    | .notifying ticket =>
      some (p.proceed w worker (.releasing ticket), [.answered w ticket answer])
    | _ => none
  | none => none

end Spool.Pool
