import Spool.Proofs.Job

/-!
What is done to a job, one use after the other: a result is written, a store executes the job, a
failure is recorded where there is no result yet. A use that is abandoned is caught, and the next
one finds the job as it was left. The first result stays, whatever is done to the job afterwards.
-/

namespace Spool

namespace Job

/-- Something that is done to a job. -/
inductive Use
  | complete (verdict : Verdict) (hash : Option String)
  /-- By a store that ends its call in the given way. -/
  | execute (outcome : Outcome)
  | failUnfinished (code : Int)
  deriving DecidableEq, Repr

namespace Use

/-- The job after a use, and why the use was abandoned if it was. -/
def apply (use : Use) (job : Job) : Job × Option Abort :=
  match use with
  | complete verdict hash =>
    match job.complete verdict hash with
    | .ok done => (done, none)
    | .error abort => (job, some abort)
  | execute outcome =>
    match job.execute outcome with
    | .ok (done, _) => (done, none)
    | .error abort => (job, some abort)
  | failUnfinished code => (job.failUnfinished code, none)

/-- What a use writes into a job without a result. A store that gives up leaves nothing to write. -/
def result? : Use → Option (Verdict × Option String)
  | complete verdict hash => some (verdict, hash)
  | execute (.stored hash) => some (.ok, some hash)
  | execute (.failed error) => some (.failed error.code, none)
  | execute (.gaveUp _) => none
  | failUnfinished code => some (.failed code, none)

/-- The use writes its result without looking whether there is one. -/
def insists : Use → Bool
  | complete .. | execute (.stored _) | execute (.failed _) => true
  | execute (.gaveUp _) | failUnfinished _ => false

end Use

/-- The job with a result, in place of any other. A termination takes none. -/
def record (verdict : Verdict) (hash : Option String) : Job → Job
  | transfer t => transfer { t with verdict := some verdict }
  | transform t => transform { t with verdict := some verdict, hash }
  | termination => termination

/-- The job as it was submitted: what it asks for, and no result. -/
def blank : Job → Job
  | transfer t => transfer { t with verdict := none }
  | transform t => transform { t with verdict := none, hash := none }
  | termination => termination

/-- The job after uses one after the other. -/
def after (job : Job) (uses : List Use) : Job :=
  uses.foldl (fun held use => (use.apply held).1) job

/-- What becomes of a job by one use, and how the use ends. -/
inductive Taken (job : Job) : Use → Job → Option Abort → Prop
  | written {use : Use} {verdict : Verdict} {hash : Option String} :
      job.isTermination = false → job.verdict? = none → use.result? = some (verdict, hash) →
      Taken job use (job.record verdict hash) none
  | gaveUp {text : String} : job.isTermination = false →
      Taken job (.execute (.gaveUp text)) job (some (.gaveUp text))
  | twice {use : Use} {source : String} {abort : Abort} : job.isTermination = false →
      job.verdict? ≠ none → job.source? = some source → use.insists = true →
      abort.message = s!"{job.kindName} job for '{source}' completed twice" →
      Taken job use job (some abort)
  | spared {code : Int} : job.isTermination = false → job.verdict? ≠ none →
      Taken job (.failUnfinished code) job none
  | stopped {use : Use} : job.isTermination = true → Taken job use job none

section Step

variable {job : Job} {verdict : Verdict} {hash : Option String} {use : Use}

theorem complete_of_unfinished (work : job.isTermination = false) (unfinished : job.verdict? = none)
    (verdict : Verdict) (hash : Option String) :
    job.complete verdict hash = .ok (job.record verdict hash) := by
  cases job with
  | transfer t | transform t =>
    have none : t.verdict = none := unfinished
    simp [complete, record, none]
  | termination => cases work

theorem complete_of_finished (work : job.isTermination = false) (finished : job.verdict? ≠ none)
    (verdict : Verdict) (hash : Option String) : ∃ kind source, job.source? = some source ∧
      kind.name = job.kindName ∧
        job.complete verdict hash = .error (.completedTwice kind source) := by
  cases job with
  | transfer t =>
    exact ⟨.transfer, t.source, rfl, rfl, if_pos (Option.isSome_iff_ne_none.mpr finished)⟩
  | transform t =>
    exact ⟨.transform, t.source, rfl, rfl, if_pos (Option.isSome_iff_ne_none.mpr finished)⟩
  | termination => cases work

theorem failUnfinished_of_unfinished (work : job.isTermination = false)
    (unfinished : job.verdict? = none) (code : Int) :
    job.failUnfinished code = job.record (.failed code) none := by
  cases job with
  | transfer t | transform t =>
    have none : t.verdict = none := unfinished
    simp [failUnfinished, record, none]
  | termination => cases work

theorem failUnfinished_of_finished (finished : job.verdict? ≠ none) (code : Int) :
    job.failUnfinished code = job := by
  cases job with
  | transfer | transform => exact if_pos (Option.isSome_iff_ne_none.mpr finished)
  | termination => rfl

/-- What a store that returns makes of a job is what its result makes of it. -/
theorem apply_execute (work : job.isTermination = false) {outcome : Outcome}
    (returns : verdictOf outcome = .ok (verdict, hash)) :
    (Use.execute outcome).apply job = (Use.complete verdict hash).apply job := by
  cases job with
  | transfer t =>
    cases completed : (transfer t).complete verdict hash <;>
      simp only [Use.apply, execute, returns, completed]
  | transform t =>
    cases completed : (transform t).complete verdict hash <;>
      simp only [Use.apply, execute, returns, completed]
  | termination => cases work

theorem taken_complete (work : job.isTermination = false)
    (insists : use.insists = true) (result : use.result? = some (verdict, hash)) :
    Taken job use ((Use.complete verdict hash).apply job).1
      ((Use.complete verdict hash).apply job).2 := by
  by_cases unfinished : job.verdict? = none
  · simp only [Use.apply, complete_of_unfinished work unfinished]
    exact .written work unfinished result
  · obtain ⟨kind, source, there, named, refused⟩ :=
      complete_of_finished work unfinished verdict hash
    simp only [Use.apply, refused]
    exact .twice work unfinished there insists (by rw [← named]; rfl)

theorem Use.taken (use : Use) (job : Job) : Taken job use (use.apply job).1 (use.apply job).2 := by
  cases stop : job.isTermination with
  | true =>
    cases job with
    | termination => cases use <;> exact .stopped rfl
    | transfer | transform => cases stop
  | false =>
    cases use with
    | complete => exact taken_complete stop rfl rfl
    | execute outcome =>
      cases outcome with
      | stored hash => rw [apply_execute stop rfl]; exact taken_complete stop rfl rfl
      | failed error => rw [apply_execute stop rfl]; exact taken_complete stop rfl rfl
      | gaveUp text =>
        cases job with
        | transfer | transform => exact .gaveUp stop
        | termination => cases stop
    | failUnfinished code =>
      by_cases unfinished : job.verdict? = none
      · simp only [Use.apply, failUnfinished_of_unfinished stop unfinished]
        exact .written stop unfinished rfl
      · simp only [Use.apply, failUnfinished_of_finished unfinished]
        exact .spared stop unfinished

end Step

/-!
The same in place, as the one who holds the job does it. What was written before a use is abandoned
stays written.
-/

namespace InPlace

/-- Refuses a job that has a result; writes the result, then the digest. -/
def complete (verdict : Verdict) (hash : Option String) : EStateM Abort Job Unit := do
  match ← get with
  | transfer t =>
    if t.verdict.isSome then throw (.completedTwice .transfer t.source)
    set (transfer { t with verdict := some verdict })
  | transform t =>
    if t.verdict.isSome then throw (.completedTwice .transform t.source)
    let written : Transform := { t with verdict := some verdict }
    set (transform written)
    set (transform { written with hash })
  | termination => pure ()

/-- What the store's call comes to. -/
def push (outcome : Outcome) : EStateM Abort Job (Verdict × Option String) :=
  match verdictOf outcome with
  | .ok result => pure result
  | .error abort => throw abort

def execute (outcome : Outcome) : EStateM Abort Job Bool := do
  match ← get with
  | transfer _ | transform _ =>
    let (verdict, hash) ← push outcome
    complete verdict hash
    return verdict.success
  | termination => return true

def failUnfinished (code : Int) : EStateM Abort Job Unit := do
  if (← get).verdict?.isNone then complete (.failed code) none

def use : Use → EStateM Abort Job Unit
  | .complete verdict hash => complete verdict hash
  | .execute outcome => discard (execute outcome)
  | .failUnfinished code => failUnfinished code

/-- Uses one after the other, of which the abandoned ones are caught. -/
def caught : List Use → EStateM Abort Job Unit
  | [] => pure ()
  | each :: rest => do
    tryCatch (use each) fun _ => pure ()
    caught rest

/-- How a use ends in place. -/
def ending : Job × Option Abort → EStateM.Result Abort Job Unit
  | (job, none) => .ok () job
  | (job, some abort) => .error abort job

theorem run_complete (verdict : Verdict) (hash : Option String) (job : Job) :
    (complete verdict hash).run job = ending ((Use.complete verdict hash).apply job) := by
  cases job with
  | transfer t =>
    obtain ⟨source, remote, move, verdict⟩ := t
    cases verdict <;> rfl
  | transform t =>
    obtain ⟨source, dir, suffix, move, verdict, hash⟩ := t
    cases verdict <;> rfl
  | termination => rfl

theorem run_use (each : Use) (job : Job) : (use each).run job = ending (each.apply job) := by
  cases each with
  | complete verdict hash => exact run_complete verdict hash job
  | execute outcome =>
    cases job with
    | transfer t =>
      obtain ⟨source, remote, move, verdict⟩ := t
      cases outcome <;> cases verdict <;> rfl
    | transform t =>
      obtain ⟨source, dir, suffix, move, verdict, hash⟩ := t
      cases outcome <;> cases verdict <;> rfl
    | termination => rfl
  | failUnfinished code =>
    cases job with
    | transfer t =>
      obtain ⟨source, remote, move, verdict⟩ := t
      cases verdict <;> rfl
    | transform t =>
      obtain ⟨source, dir, suffix, move, verdict, hash⟩ := t
      cases verdict <;> rfl
    | termination => rfl

/-- The next use goes on from the job as an abandoned one left it. -/
theorem run_tryCatch (each : Use) (job : Job) :
    (tryCatch (use each) fun _ => pure () : EStateM Abort Job Unit).run job =
      .ok () (each.apply job).1 := by
  have same : use each = fun held => ending (each.apply held) := funext (run_use each)
  rw [same]
  -- only what the use comes to on this job counts
  change EStateM.tryCatch (fun _ => ending (each.apply job)) (fun _ => pure ()) job = _
  rcases each.apply job with ⟨left, _ | abort⟩ <;> rfl

theorem run_caught (uses : List Use) (job : Job) :
    (caught uses).run job = .ok () (job.after uses) := by
  induction uses generalizing job with
  | nil => rfl
  | cons each uses ih =>
    rw [caught, EStateM.run_bind, run_tryCatch]
    exact ih (each.apply job).1

end InPlace

section Runs

variable {job left : Job} {use : Use} {abort : Option Abort} {uses : List Use}

theorem after_append (job : Job) (before rest : List Use) :
    job.after (before ++ rest) = (job.after before).after rest :=
  List.foldl_append

theorem verdict?_record (work : job.isTermination = false) (verdict : Verdict)
    (hash : Option String) : (job.record verdict hash).verdict? = some verdict := by
  cases job with
  | transfer | transform => rfl
  | termination => cases work

theorem blank_record (job : Job) (verdict : Verdict) (hash : Option String) :
    (job.record verdict hash).blank = job.blank := by
  cases job <;> rfl

theorem Taken.blank_eq (taken : Taken job use left abort) : left.blank = job.blank := by
  cases taken with
  | written => exact blank_record ..
  | gaveUp | twice | spared | stopped => rfl

theorem Taken.eq_of_finished (taken : Taken job use left abort) (finished : job.verdict? ≠ none) :
    left = job := by
  cases taken with
  | written _ unfinished => exact absurd unfinished finished
  | gaveUp | twice | spared | stopped => rfl

/-- A job without a result takes the use's, if it has one. -/
theorem Taken.of_unfinished (taken : Taken job use left abort) (work : job.isTermination = false)
    (unfinished : job.verdict? = none) :
    left = match use.result? with
      | some (verdict, hash) => job.record verdict hash
      | none => job := by
  cases taken with
  | written _ _ result => rw [result]
  | gaveUp => rfl
  | twice _ finished | spared _ finished => exact absurd unfinished finished
  | stopped stop => cases work.symm.trans stop

theorem blank_after (job : Job) (uses : List Use) : (job.after uses).blank = job.blank := by
  induction uses generalizing job with
  | nil => rfl
  | cons use uses ih => exact (ih (use.apply job).1).trans (use.taken job).blank_eq

theorem after_of_finished (finished : job.verdict? ≠ none) (uses : List Use) :
    job.after uses = job := by
  induction uses with
  | nil => rfl
  | cons use uses ih =>
    have same : (use.apply job).1 = job := (use.taken job).eq_of_finished finished
    rw [after, List.foldl_cons, same]
    exact ih

theorem after_of_unfinished (work : job.isTermination = false) (unfinished : job.verdict? = none)
    (uses : List Use) : job.after uses =
      match uses.findSome? Use.result? with
      | some (verdict, hash) => job.record verdict hash
      | none => job := by
  induction uses with
  | nil => rfl
  | cons use uses ih =>
    have step := (use.taken job).of_unfinished work unfinished
    rw [after, List.foldl_cons, step, List.findSome?_cons]
    cases use.result? with
    | none => exact ih
    | some result =>
      refine after_of_finished ?_ uses
      rw [verdict?_record work]
      exact Option.some_ne_none _

theorem verdict?_of_termination (stop : job.isTermination = true) : job.verdict? ≠ none := by
  cases job with
  | termination => exact Option.some_ne_none _
  | transfer | transform => cases stop

/-- A call of a store that is not abandoned leaves a result. -/
theorem Taken.leaves {outcome : Outcome} (taken : Taken job (.execute outcome) left none) :
    left.verdict? ≠ none := by
  cases taken with
  | written work =>
    rw [verdict?_record work]
    exact Option.some_ne_none _
  | stopped stop => exact verdict?_of_termination stop

/-- What a worker does with a job are two uses of it: the store executes it, and a failure is
recorded if there is no result then. -/
theorem settle_eq_after (job : Job) (outcome : Outcome) :
    (job.settle outcome).1 = job.after [.execute outcome, .failUnfinished (-1)] := by
  have taken := (Use.execute outcome).taken job
  simp only [after, List.foldl_cons, List.foldl_nil]
  cases executed : job.execute outcome with
  | error abort => simp only [settle, Use.apply, executed]
  | ok done =>
    simp only [Use.apply, executed] at taken
    simp only [settle, Use.apply, executed]
    exact (failUnfinished_of_finished taken.leaves (-1)).symm

theorem settle_of_finished (finished : job.verdict? ≠ none) (outcome : Outcome) :
    (job.settle outcome).1 = job := by
  rw [settle_eq_after]
  exact after_of_finished finished _

end Runs

/-- What uses one after the other make of a job. -/
structure WrittenOnce (job : Job) (uses : List Use) : Prop where
  /-- What the job asks for is never changed. -/
  asks : (job.after uses).blank = job.blank
  /-- The first use that comes to a result decides the result and the digest. -/
  first : job.isTermination = false → job.verdict? = none → job.after uses =
    match uses.findSome? Use.result? with
    | some (verdict, hash) => job.record verdict hash
    | none => job
  /-- Once there is a result, nothing changes. -/
  stays : ∀ before rest, uses = before ++ rest → (job.after before).verdict? ≠ none →
    job.after uses = job.after before
  /-- In place, each use ends as it should and leaves the job that the next one finds. -/
  steps : ∀ before use rest, uses = before ++ use :: rest →
    ∃ abort, Taken (job.after before) use (job.after (before ++ [use])) abort ∧
      (InPlace.use use).run (job.after before) =
        InPlace.ending (job.after (before ++ [use]), abort)
  /-- Nothing is lost by catching what was abandoned. -/
  caught : (InPlace.caught uses).run job = .ok () (job.after uses)
  /-- A termination is successful from the start, and stays so. -/
  stopped : job.isTermination = true →
    job.after uses = job ∧ job.isSuccessful = true ∧ job.code = 0

/-- Whatever is done to a job, what it asks for stays, and so does its first result. -/
theorem written_once (job : Job) (uses : List Use) : WrittenOnce job uses where
  asks := blank_after job uses
  first work unfinished := after_of_unfinished work unfinished uses
  stays before rest split finished := by
    rw [split, after_append]
    exact after_of_finished finished rest
  steps before use rest _ := by
    rw [after_append]
    exact ⟨_, use.taken _, InPlace.run_use use _⟩
  caught := InPlace.run_caught uses job
  stopped stop := by
    refine ⟨after_of_finished (verdict?_of_termination stop) uses, ?_⟩
    cases job with
    | termination => exact ⟨rfl, rfl⟩
    | transfer | transform => cases stop

example : (transform ⟨"in", "out", "", false, none, none⟩).after
    [.execute (.gaveUp "store"), .execute (.stored "ab"), .failUnfinished 5, .complete .ok none] =
      transform ⟨"in", "out", "", false, some .ok, some "ab"⟩ := by
  decide

end Job

end Spool
