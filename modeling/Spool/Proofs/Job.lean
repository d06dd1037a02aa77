import Spool.Pool.Basic

/-!
A job that was not executed yet, and what executing it makes of it, whatever the store does.
-/

namespace Spool

namespace Outcome

/-- How a call of a store is judged. -/
def verdict : Outcome → Verdict
  | stored _ => ⟨true, 0⟩
  | failed error => ⟨false, error.code⟩
  | gaveUp _ => ⟨false, -1⟩

/-- The digest that a call of a store returned. -/
def digest : Outcome → Option String
  | stored hash => some hash
  | failed _ | gaveUp _ => none

end Outcome

namespace Job

/-- The job has no result yet. -/
def IsFresh : Job → Prop
  | transfer job => job.verdict = none
  | transform job => job.verdict = none ∧ job.hash = none
  | termination => True

/-- Which job is to be pushed in which way. -/
inductive IsFor : Job → PushKind → Prop
  | transfer (job : Transfer) : IsFor (.transfer job) .transfer
  | transform (job : Transform) : IsFor (.transform job) .transform

/-- The job with the result that an outcome stands for. A termination takes none. -/
def finished (outcome : Outcome) : Job → Job
  | transfer job => transfer { job with verdict := some outcome.verdict }
  | transform job =>
    transform { job with verdict := some outcome.verdict, hash := outcome.digest }
  | termination => termination

/-- What a callback is told of the job once the store's call for it ended in the given way. -/
def report (outcome : Outcome) : Job → Option Notice
  | transfer job => some (.copied job.source outcome.verdict.code)
  | transform job =>
    some (.processed job.source outcome.verdict.code (outcome.digest.getD ""))
  | termination => none

theorem notice?_finished (job : Job) (outcome : Outcome) :
    (job.finished outcome).notice? = job.report outcome := by
  cases job <;> rfl

theorem isFresh_submission (submission : Submission) (move : Bool) :
    (submission.job move).IsFresh ∧ (submission.job move).isTermination = false := by
  cases submission with
  | transfer => exact ⟨rfl, rfl⟩
  | transform => exact ⟨⟨rfl, rfl⟩, rfl⟩

theorem push?_eq_none_iff {job : Job} : job.push? = none ↔ job.isTermination = true := by
  cases job <;> simp [push?, isTermination]

/-- A store is asked for the push that the job is for. -/
theorem push?_eq_some_iff {job : Job} {kind : PushKind} :
    job.push? = some kind ↔ job.IsFor kind := by
  constructor
  · intro asked
    cases job with
    | transfer job =>
      cases asked
      exact .transfer job
    | transform job =>
      cases asked
      exact .transform job
    | termination => cases asked
  · intro isFor
    cases isFor <;> rfl

theorem IsFor.isTermination_eq {job : Job} {kind : PushKind} (isFor : job.IsFor kind) :
    job.isTermination = false := by
  cases isFor <;> rfl

theorem isTermination_of_push? {job : Job} {kind : PushKind} (some : job.push? = some kind) :
    job.isTermination = false :=
  (push?_eq_some_iff.mp some).isTermination_eq

theorem isTermination_of_notice? {job : Job} {notice : Notice} (told : job.notice? = some notice) :
    job.isTermination = false := by
  cases job with
  | termination => cases told
  | transfer | transform => rfl

theorem notice?_eq_none_iff {job : Job} : job.notice? = none ↔ job.isTermination = true := by
  cases job <;> simp [notice?, isTermination]

@[simp] theorem isTermination_finished (job : Job) (outcome : Outcome) :
    (job.finished outcome).isTermination = job.isTermination := by
  cases job <;> rfl

theorem isSuccessful_finished {job : Job} (work : job.isTermination = false) (outcome : Outcome) :
    (job.finished outcome).isSuccessful = outcome.verdict.success := by
  cases job with
  | termination => cases work
  | transfer | transform => rfl

/-- A fresh job can be executed: the call that it makes of the store decides the result, and the
result is not there already. -/
theorem execute_of_isFresh {job : Job} (fresh : job.IsFresh) (work : job.isTermination = false)
    (outcome : Outcome) : job.execute outcome =
      match outcome with
      | .gaveUp text => .error (.gaveUp text)
      | .stored _ | .failed _ => .ok (job.finished outcome, outcome.verdict.success) := by
  cases job with
  | termination => cases work
  | transfer job =>
    obtain ⟨source, remote, move, verdict⟩ := job
    cases fresh
    cases outcome <;> rfl
  | transform job =>
    obtain ⟨source, dir, suffix, move, verdict, hash⟩ := job
    obtain ⟨noVerdict, noHash⟩ := fresh
    cases noVerdict
    cases noHash
    cases outcome <;> rfl

/-- Whether the store's call returned or was abandoned, the job is left with its result. -/
theorem settle_of_unfinished {job : Job} (work : job.isTermination = false)
    (unfinished : job.verdict? = none) (outcome : Outcome) :
    job.settle outcome = (job.finished outcome, outcome.verdict.success) := by
  cases job with
  | termination => cases work
  | transfer job =>
    obtain ⟨source, remote, move, verdict⟩ := job
    cases (unfinished : verdict = none)
    cases outcome <;> rfl
  | transform job =>
    obtain ⟨source, dir, suffix, move, verdict, hash⟩ := job
    cases (unfinished : verdict = none)
    cases outcome <;> rfl

theorem settle_of_isFresh {job : Job} (fresh : job.IsFresh) (work : job.isTermination = false)
    (outcome : Outcome) :
    job.settle outcome = (job.finished outcome, outcome.verdict.success) := by
  refine settle_of_unfinished work ?_ outcome
  cases job with
  | transfer => exact fresh
  | transform => exact fresh.1
  | termination => cases work

theorem isTermination_settle (job : Job) (outcome : Outcome) :
    (job.settle outcome).1.isTermination = job.isTermination := by
  cases job with
  | termination => rfl
  | transfer job =>
    obtain ⟨source, remote, move, verdict⟩ := job
    cases verdict <;> cases outcome <;> rfl
  | transform job =>
    obtain ⟨source, dir, suffix, move, verdict, hash⟩ := job
    cases verdict <;> cases outcome <;> rfl

end Job

end Spool
