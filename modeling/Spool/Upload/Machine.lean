import Spool.Upload.Basic

/-!
The steps of an upload. Each is one step of one thread and makes one call to the outside at most, so
every interleaving of the main thread with the workers, down to single file-system calls, is a run.
-/

namespace Spool.Upload

variable {σ : Type}

/-- The main thread takes the next file, or closes the transaction: after the last one, or when it was
interrupted. -/
def takeNext? (u : Upload) (rest : List Listed) : Option (Program Upload) :=
  match if u.interrupted then [] else rest with
  | [] => (u.ask? .endTransaction .closing).map .done
  | .unreadable :: _ => (u.ask? .drop (.dropping .unreadable)).map .done
  | .file name :: rest =>
    (u.ask? (.submit (u.plan.submission name)) (.submitting rest)).map fun asked =>
      .size name fun size =>
        .done { asked with progress.bytes := asked.progress.bytes + size.getD 0 }

def mainStep? (u : Upload) : Option (Program Upload) :=
  match u.phase with
  | .building =>
    match u.fault with
    | some error => some (.done { u with phase := .over (.notStarted error) })
    | none => (u.ask? (.setMoveMode u.plan.move) .switching).map .done
  | .switching => (u.ask? (.setCallback ()) .registering).map .done
  | .registering => some (.done { u with phase := .listing u.listed })
  | .listing rest => u.takeNext? rest
  | .submitting rest =>
    some (.done { u with
      progress.submitted := u.progress.submitted + 1
      phase := .draining rest })
  | .draining rest =>
    match u.inbox with
    | failed :: left => some (.done (u.readNotice failed left))
    | [] => some (.done { u with phase := .listing rest })
  | .closing => some (.done { u with phase := .collecting })
  | .collecting =>
    if u.progress.completed < u.progress.submitted then
      match u.inbox with
      | failed :: left => some (.done (u.readNotice failed left))
      | [] =>
        if u.pool.callback.isSome then none
        else (u.ask? .waitForUpload (.waiting true)).map .done
    else (u.ask? .waitForUpload (.waiting false)).map .done
  | .waiting _ => some (.done { u with phase := .settling })
  | .settling =>
    match u.inbox with
    | failed :: left => some (.done (u.readNotice failed left))
    | [] => (u.ask? .drop (.dropping (.finished (u.pool.failed == 0)))).map .done
  | .dropping result => some (.done { u with phase := .over result })
  | .over _ => none

/-- The next step of the main thread inside the pool. Building it, the thread prepares the store of
each worker. -/
def callStep? (u : Upload) (woken : Option Thread) : Option (Program Upload) :=
  match u.pool.call? mainThread with
  | some (.starting next) =>
    if next < u.pool.size.workers then
      some ((Store.prepare u.plan.definition).bind fun prepared =>
        let reply :=
          match prepared with
          | .ok _ => .ok ()
          | .error e => .error (.noStore next e)
        .done (((u.pool.startReply? mainThread reply).map u.follow).getD u))
    else (u.pool.callerStep? mainThread woken).map fun change => .done (u.follow change)
  | some _ => (u.pool.callerStep? mainThread woken).map fun change => .done (u.follow change)
  | none => none

def pushStep? (u : Upload) (w : Nat) (job : Job) : Option (Program Upload) :=
  match u.push? w with
  | none => some (.done (u.setPush w ((Store.ofDefinition u.plan.definition).push job)))
  | some push =>
    match push.result? with
    | some result =>
      (u.pool.pushed? w (.ofResult result)).map fun change => .done ((u.endPush w).follow change)
    | none => some (push.first.bind fun left => .done (u.setPush w left))

def workerStep? (u : Upload) (w : Nat) : Option (Program Upload) :=
  match u.pool.worker? w with
  | none => none
  | some worker =>
    match worker.phase with
    | .pushing ticket => u.pushStep? w ticket.job
    | .notifying _ => (u.pool.notified? w .returned).map fun change => .done (u.follow change)
    | _ => (u.pool.workerStep? w).map fun change => .done (u.follow change)

inductive Move
  /-- The main thread, inside the pool or outside; `woken` is the worker that its put wakes. -/
  | main (woken : Option Thread)
  | worker (w : Nat)
  | rouse (thread : Thread)
  | interrupt
  deriving DecidableEq, Repr

/-- The calls of a move, if it can be made, with the upload as it is then. -/
def step? (u : Upload) : Move → Option (Program Upload)
  | .main woken =>
    if (u.pool.call? mainThread).isSome then u.callStep? woken
    else if woken.isSome then none
    else u.mainStep?
  | .worker w => u.workerStep? w
  | .rouse thread => (u.pool.rouse? thread).map fun change => .done (u.follow change)
  | .interrupt => if u.phase.catches then some (.done { u with interrupted := true }) else none

/-- What can become of an upload and of the world around it. -/
inductive Run (store : KeyStore σ) (start : World σ × Upload) : World σ × Upload → Prop
  | start : Run store start start
  | next {w : World σ} {u : Upload} {move : Move} {step : Program Upload} :
      Run store start (w, u) → u.step? move = some step → Run store start (step.run store w)

end Spool.Upload
