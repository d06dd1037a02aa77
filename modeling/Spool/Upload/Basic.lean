import Spool.Pool.Machine
import Spool.Push.Store
import Spool.Report.Progress
import Spool.Upload.Plan

/-!
An upload in progress: the main thread, the pool it feeds, the pushes its workers are at, and the
inbox in which callbacks leave word for the main thread.
-/

namespace Spool

inductive UploadEnd
  /-- Everything was tried; whether all succeeded. -/
  | finished (success : Bool)
  | notStarted (error : WorkerError)
  /-- The list of files could not be read to its end. -/
  | unreadable
  deriving DecidableEq, Repr

/-- Where the main thread is; `rest` is what is still listed. In most phases a call of the pool may be
under way, and the phase says what comes behind it. -/
inductive UploadPhase
  /-- The pool is being built. -/
  | building
  | switching
  | registering
  /-- About to take the next file. -/
  | listing (rest : List Listed)
  | submitting (rest : List Listed)
  /-- Reading what is in the inbox, without waiting. -/
  | draining (rest : List Listed)
  | closing
  /-- Reading the inbox until every submitted job is accounted for. -/
  | collecting
  /-- Waiting for the pool. `cut` tells that collecting ended because nobody could write to the
  inbox any more. -/
  | waiting (cut : Bool)
  /-- Reading what is left in the inbox. -/
  | settling
  | dropping (result : UploadEnd)
  | over (result : UploadEnd)
  deriving DecidableEq, Repr

/-- Interrupts are caught from the time when the first file is looked for. -/
def UploadPhase.catches : UploadPhase → Bool
  | .building | .switching | .registering | .over _ => false
  | _ => true

structure Upload where
  plan : Plan
  /-- What is listed. -/
  listed : List Listed
  /-- Its callback writes to the inbox. -/
  pool : Pool Unit
  phase : UploadPhase := .building
  /-- What is left of a worker's push. -/
  pushes : List (Nat × Push) := []
  /-- For each finished job, whether it failed; the oldest first. -/
  inbox : List Bool := []
  progress : Progress := {}
  /-- Why the pool could not be built. -/
  fault : Option WorkerError := none
  /-- An interrupt was received: no more files are taken. -/
  interrupted : Bool := false

namespace Upload

def mainThread : Nat := Pool.builder

def begin (plan : Plan) (listed : List Listed) : Upload where
  plan
  listed
  pool := .new plan.definition.poolSize

/-- Takes note of what happened in the pool. -/
def hear (u : Upload) : Event Unit → Upload
  | .notified _ _ _ notice => { u with inbox := u.inbox ++ [notice.code != 0] }
  | .ended _ (.notStarted error) => { u with fault := some error }
  | _ => u

def follow (u : Upload) (change : Pool.Change Unit) : Upload :=
  change.2.foldl hear { u with pool := change.1 }

def ask? (u : Upload) (call : Call Unit) (phase : UploadPhase) : Option Upload :=
  (u.pool.begin? mainThread call).map { u with phase }.follow

def readNotice (u : Upload) (failed : Bool) (left : List Bool) : Upload :=
  { u with inbox := left, progress := u.progress.finishOne failed }

def push? (u : Upload) (w : Nat) : Option Push :=
  u.pushes.lookup w

def setPush (u : Upload) (w : Nat) (push : Push) : Upload :=
  { u with pushes := (w, push) :: u.pushes.filter (·.1 ≠ w) }

def endPush (u : Upload) (w : Nat) : Upload :=
  { u with pushes := u.pushes.filter (·.1 ≠ w) }

end Upload

end Spool
