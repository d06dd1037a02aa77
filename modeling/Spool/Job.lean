import Spool.Abort
import Spool.PushError

/-!
Jobs and their results. A job is a transfer (a file stored under a path), a transform (a file
compressed and stored under the digest of the result) or a termination, which tells the worker
that receives it to leave. The result of a job is written once.
-/

namespace Spool

structure Verdict where
  success : Bool
  code : Int
  deriving DecidableEq, Repr

namespace Verdict

def ok : Verdict := ⟨true, 0⟩

def failed (code : Int) : Verdict := ⟨false, code⟩

end Verdict

structure Transfer where
  source : String
  /-- Where the content goes, relative to the store. -/
  remote : String
  /-- Whether the source is removed once it is stored. -/
  move : Bool
  verdict : Option Verdict := none
  deriving DecidableEq, Repr

structure Transform where
  source : String
  /-- The directory of the stored object, relative to the store. -/
  dir : String
  /-- Appended to the object's name. -/
  suffix : String
  move : Bool
  verdict : Option Verdict := none
  hash : Option String := none
  deriving DecidableEq, Repr

inductive Job
  | transfer (job : Transfer)
  | transform (job : Transform)
  | termination
  deriving DecidableEq, Repr

/-- How one call of a store ended. A transfer stores no digest and ignores the one given. -/
inductive Outcome
  | stored (hash : String)
  | failed (error : PushError)
  | gaveUp (text : String)
  deriving DecidableEq, Repr

namespace Job

def isTermination : Job → Bool
  | termination => true
  | transfer _ | transform _ => false

def kindName : Job → String
  | transfer _ => "transfer"
  | transform _ => "transform"
  | termination => "termination"

def push? : Job → Option PushKind
  | transfer _ => some .transfer
  | transform _ => some .transform
  | termination => none

def source? : Job → Option String
  | transfer job => some job.source
  | transform job => some job.source
  | termination => none

/-- A termination counts as done from the start. -/
def verdict? : Job → Option Verdict
  | transfer job => job.verdict
  | transform job => job.verdict
  | termination => some .ok

/-- A job that was not executed is not successful. -/
def isSuccessful (job : Job) : Bool :=
  job.verdict?.any (·.success)

def code (job : Job) : Int :=
  (job.verdict?.map (·.code)).getD (-1)

/-- The digest of a stored transform; empty for any other transform. -/
def hash? : Job → Option String
  | transform job => some (job.hash.getD "")
  | transfer _ | termination => none

def name : Job → String
  | transfer job => s!"transfer {job.source} -> {job.remote}"
  | transform job => s!"transform {job.source} -> {job.dir}/*{job.suffix}"
  | termination => "termination"

/-- Writes the result. A second result is refused, and a termination takes none. -/
def complete (job : Job) (verdict : Verdict) (hash : Option String) : Except Abort Job :=
  match job with
  | transfer t =>
    if t.verdict.isSome then .error (.completedTwice .transfer t.source)
    else .ok (transfer { t with verdict := some verdict })
  | transform t =>
    if t.verdict.isSome then .error (.completedTwice .transform t.source)
    else .ok (transform { t with verdict := some verdict, hash })
  | termination => .ok termination

def failUnfinished (job : Job) (code : Int) : Job :=
  match job with
  | transfer t =>
    if t.verdict.isSome then job else transfer { t with verdict := some (.failed code) }
  | transform t =>
    if t.verdict.isSome then job
    else transform { t with verdict := some (.failed code), hash := none }
  | termination => termination

def verdictOf : Outcome → Except Abort (Verdict × Option String)
  | .stored hash => .ok (.ok, some hash)
  | .failed error => .ok (.failed error.code, none)
  | .gaveUp text => .error (.gaveUp text)

/-- Executes the job with a store that ends the call in the given way; tells whether it succeeded.
A termination asks nothing of the store. -/
def execute (job : Job) (outcome : Outcome) : Except Abort (Job × Bool) :=
  match job with
  | termination => .ok (termination, true)
  | transfer _ | transform _ =>
    match verdictOf outcome with
    | .error abort => .error abort
    | .ok (verdict, hash) =>
      match job.complete verdict hash with
      | .error abort => .error abort
      | .ok done => .ok (done, verdict.success)

/-- What a worker makes of a job: an abandoned call leaves a failure with code -1. -/
def settle (job : Job) (outcome : Outcome) : Job × Bool :=
  match job.execute outcome with
  | .ok done => done
  | .error _ => (job.failUnfinished (-1), false)

end Job

end Spool
