import Spool.Pool.Basic

/-!
What a caller does: it submits jobs, ends the transaction, waits for the drain, changes callback and
move mode, drops the pool. Building a pool is a call too; when a worker cannot be started, those
that were are told to leave and joined before the error is returned.
-/

namespace Spool.Pool

variable {κ : Type}

/-- A call begins. A pool is dropped by its owner, so when nobody else is inside a call. -/
def begin? (p : Pool κ) (c : Nat) (call : Call κ) : Option (Change κ) :=
  if p.lifecycle = .uninitialized ∨ p.dropped ∨ (p.call? c).isSome then none
  else
    match call with
    | .drop =>
      if p.calls.isEmpty then
        some ({ p with calls := [(c, call.phase)], dropped := true }, [.called c call])
      else none
    | _ => some ({ p with calls := p.calls ++ [(c, call.phase)] }, [.called c call])

def finish (p : Pool κ) (c : Nat) (ending : Ending) : Change κ :=
  (p.endCall c, [.ended c ending])

def scheduled (p : Pool κ) (c : Nat) : Goal → Change κ
  | .submit | .close => p.finish c .returned
  | .drop => (p.setCall c (.joining 0 .drop), [])
  | .abandon error => (p.setCall c (.joining 0 (.abandon error)), [])

def terminations (p : Pool κ) (c : Nat) (goal : Goal) : Nat → Change κ
  | 0 => p.scheduled c goal
  | more + 1 => (p.setCall c (.counting .termination more goal), [])

/-- The store for the next worker was made and the worker started, or one of both failed. -/
def startReply? (p : Pool κ) (c : Nat) (reply : Except WorkerError Unit) : Option (Change κ) :=
  match p.call? c with
  | some (.starting next) =>
    if next < p.size.workers then
      match reply with
      | .ok () =>
        some ({ p.setCall c (.starting (next + 1)) with
          workers := p.workers ++ [{}]
          queue := p.queue.beginGet (.worker next) }, [.asked next, .started next])
      | .error error =>
        let (p, events) := p.terminations c (.abandon error) p.workers.length
        some (p, .asked next :: events)
    else none
  | _ => none

/-- An initialized pool gets an open transaction; an open one stays open. -/
def openTransaction (p : Pool κ) (c : Nat) (submission : Submission) : Change κ :=
  if p.lifecycle.acceptsJobs then
    ({ p with lifecycle := .transactionOpen }.setCall c (.making submission), [])
  else p.finish c (.aborted (.wrongStage submission.request p.lifecycle))

/-- Of all who try, one closes the transaction, and schedules a termination for every worker. -/
def closeTransaction (p : Pool κ) (c : Nat) (goal : Goal) : Change κ :=
  if p.lifecycle.acceptsJobs then
    let (p, events) :=
      { p with lifecycle := .transactionClosed }.terminations c goal p.size.workers
    (p, .closed c :: events)
  else
    match goal with
    | .drop => p.scheduled c .drop
    | _ => p.finish c (.aborted (.wrongStage .endTransaction p.lifecycle))

def count (p : Pool κ) (c : Nat) (job : Job) (more : Nat) (goal : Goal) : Change κ :=
  let ticket : Ticket := ⟨p.issued, job⟩
  ({ p with
      issued := p.issued + 1
      pending := p.pending + 1
      queue := p.queue.beginPut (.caller c) ticket }.setCall c (.putting more goal),
    [.counted c ticket])

def put? (p : Pool κ) (c : Nat) (more : Nat) (goal : Goal) (woken : Option Thread) :
    Option (Change κ) :=
  match p.queue.putter? (.caller c), p.queue.putTurn? (.caller c) woken with
  | some putter, some (queue, true) =>
    let (p, events) := { p with queue }.terminations c goal more
    some (p, .appended c putter.item :: events)
  | some _, some (queue, false) => some ({ p with queue }, [])
  | _, _ => none

def join? (p : Pool κ) (c next : Nat) (goal : Goal) : Option (Change κ) :=
  match p.worker? next with
  | some worker =>
    if worker.phase = .exited then
      some (p.setCall c (.joining (next + 1) goal), [.joined c next])
    else none
  | none =>
    match goal with
    | .abandon error => some (p.finish c (.notStarted error))
    | _ => some (p.finish c .returned)

def callerStep? (p : Pool κ) (c : Nat) (woken : Option Thread) : Option (Change κ) :=
  match p.call? c with
  | none => none
  | some phase =>
    match phase with
    | .putting more goal => p.put? c more goal woken
    | phase =>
      if woken.isSome then none
      else
        match phase with
        | .putting .. | .asleep => none
        | .starting next =>
          if next = p.size.workers then
            some ({ p with lifecycle := .initialized }.finish c .returned)
          else none
        | .opening submission => some (p.openTransaction c submission)
        | .making submission =>
          some (p.setCall c (.counting (submission.job p.moveMode) 0 .submit), [])
        | .counting job more goal => some (p.count c job more goal)
        | .closing goal => some (p.closeTransaction c goal)
        | .joining next goal => p.join? c next goal
        | .locking =>
          if p.drainLock.isNone then
            some ({ p with drainLock := some (.caller c) }.setCall c .checking, [])
          else none
        | .checking =>
          if p.pending = 0 then some ({ p with drainLock := none }.finish c .returned)
          else some (p.setCall c .dozing, [])
        | .dozing => some ({ p with drainLock := none }.setCall c .asleep, [])
        | .registering callback =>
          if p.isNotifying then none
          else if p.callback.isSome then some (p.finish c (.aborted .callbackTaken))
          else
            let (p, events) := { p with callback := some callback }.finish c .returned
            some (p, .registered c callback :: events)
        | .clearing =>
          if p.isNotifying then none
          else
            let (p, events) := { p with callback := none }.finish c .returned
            some (p, .cleared c :: events)
        | .switching on => some ({ p with moveMode := on }.finish c .returned)

/-- A sleeping thread wakes although nobody woke it. -/
def rouse? (p : Pool κ) (thread : Thread) : Option (Change κ) :=
  match p.queue.rouse? thread with
  | some queue => some ({ p with queue }, [])
  | none =>
    match thread with
    | .worker _ => none
    | .caller c =>
      match p.call? c with
      | some .asleep => some (p.setCall c .locking, [])
      | _ => none

end Spool.Pool
