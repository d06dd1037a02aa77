import Spool.Proofs.Job.Uses
import Spool.Proofs.Pool.Tellings

/-!
Whether a code tells a failure from a success. A code of the system or of a store is passed on as it
is, so that it can be the code of a success. Short of that the code in a job and the one that a
callback is told agree with the job's success, and the failures that a callback can count by their
codes are those that the pool counts.
-/

namespace Spool

variable {κ : Type}

/-- The store's call failed with a code that is passed on, and that is the code of a success. -/
inductive Outcome.Mute : Outcome → Prop
  | system (path : String) : Mute (.failed (.io path (.system 0)))
  | status (key : String) : Mute (.failed (.refused key 0))

theorem Outcome.coded_iff_not_mute (outcome : Outcome) : outcome.Coded ↔ ¬ outcome.Mute := by
  constructor
  · intro coded mute
    cases mute <;> exact coded rfl
  · intro sound
    cases outcome with
    | stored | gaveUp => trivial
    | failed error =>
      intro zero
      cases error with
      | io path cause =>
        cases cause with
        | system errno =>
          cases (zero : errno = 0)
          exact sound (.system path)
        | other => cases zero
      | refused key status =>
        cases Int.ofNat_eq_zero.mp zero
        exact sound (.status key)
      | unreachable | compression => cases zero

namespace Job

/-- The job's code tells whether the job succeeded. -/
def Tells (job : Job) : Prop :=
  job.code = 0 ↔ job.isSuccessful = true

instance (job : Job) : Decidable job.Tells :=
  inferInstanceAs (Decidable (_ ↔ _))

theorem code_finished {job : Job} (work : job.isTermination = false) (outcome : Outcome) :
    (job.finished outcome).code = outcome.verdict.code := by
  cases job with
  | transfer | transform => rfl
  | termination => cases work

theorem code_of_notice? {job : Job} {notice : Notice} (told : job.notice? = some notice) :
    notice.code = job.code := by
  cases job with
  | transfer | transform => cases told; rfl
  | termination => cases told

theorem tells_finished {job : Job} (work : job.isTermination = false) (outcome : Outcome) :
    (job.finished outcome).Tells ↔ outcome.Coded := by
  rw [Tells, code_finished work, isSuccessful_finished work, Outcome.coded_iff]

end Job

namespace Pool

variable {p : Pool κ} {events : List (Event κ)} {size : PoolSize}

/-- What callbacks are told of jobs, compared with what the pool counts. -/
structure CodesTell (events : List (Event κ)) (p : Pool κ) : Prop where
  /-- The code that is told is the job's, and tells whether the job succeeded. -/
  told : ∀ w ticket callback notice, .notified w ticket callback notice ∈ events →
    notice.code = ticket.job.code ∧ (notice.code = 0 ↔ ticket.job.isSuccessful = true)
  /-- The pool is ahead of what was told by the workers that have counted a failure and have not
  looked for a callback yet. -/
  counted : Heard events →
    p.failed = (toldFailures events).count true + p.workerSum untoldFailure
  settled : Heard events →
    (∀ w ticket, p.phase? w = some (.dispatching ticket) → ticket.job.isSuccessful = true) →
    p.failed = (toldFailures events).count true
  drained : Heard events → p.pending = 0 → p.failed = (toldFailures events).count true

theorem Sound.told_tells (sound : Sound events p) (coded : Coded events) {w : Nat} {ticket : Ticket}
    {callback : κ} {notice : Notice} (member : .notified w ticket callback notice ∈ events) :
    notice.code = ticket.job.code ∧ (notice.code = 0 ↔ ticket.job.isSuccessful = true) := by
  obtain ⟨first, outcome, pushed, work, rfl, report⟩ := sound.pushed_of_notified member
  have same : notice.code = (first.finished outcome).job.code :=
    Job.code_of_notice? ((first.job.notice?_finished outcome).trans report)
  refine ⟨same, ?_⟩
  rw [same]
  exact (Job.tells_finished work outcome).mpr (coded w first outcome pushed)

theorem untoldFailure_eq_zero {phase : WorkerPhase}
    (settled : ∀ ticket, phase = .dispatching ticket → ticket.job.isSuccessful = true) :
    untoldFailure phase = 0 := by
  cases phase with
  | dispatching ticket => simp [untoldFailure, Ticket.fails, settled ticket rfl]
  | _ => rfl

theorem Run.failed_of_settled (run : Run (.new size) events p) (coded : Coded events)
    (heard : Heard events) (settled : ∀ w ticket, p.phase? w = some (.dispatching ticket) →
      ticket.job.isSuccessful = true) : p.failed = (toldFailures events).count true := by
  have none : p.workerSum untoldFailure = 0 := by
    refine tally_eq_zero _ fun worker member => untoldFailure_eq_zero fun ticket phase => ?_
    obtain ⟨w, there⟩ := List.getElem?_of_mem member
    exact settled w ticket (phase ▸ phase?_of_worker? there)
  rw [run.failed_of_heard coded heard, none, Nat.add_zero]

theorem Run.failed_of_drained (run : Run (.new size) events p) (coded : Coded events)
    (heard : Heard events) (none : p.pending = 0) :
    p.failed = (toldFailures events).count true := by
  refine run.failed_of_settled coded heard fun w ticket there => ?_
  obtain ⟨worker, found, phase⟩ := worker?_of_phase? there
  have free := (run.sound.idle none).2.2 worker (List.mem_of_getElem? found)
  rw [phase] at free
  cases free

/-- A worker leaves a job whose code tells whether it succeeded, unless the store's failure has the
code of a success; and as long as no failure has, and somebody is there to be told of every failure,
those told of with a code that is not zero are the pool's failures. -/
theorem codes_tell :
    (∀ (job : Job) (outcome : Outcome), job.isTermination = false →
      (job.verdict? = none → ((job.settle outcome).1.Tells ↔ ¬ outcome.Mute)) ∧
      (job.verdict? ≠ none → (job.settle outcome).1 = job)) ∧
    ∀ {κ : Type} {size : PoolSize} {events : List (Event κ)} {p : Pool κ},
      Run (.new size) events p →
      (∀ w ticket outcome, .pushed w ticket outcome ∈ events → ¬ outcome.Mute) →
      CodesTell events p := by
  refine ⟨fun job outcome work => ⟨fun unfinished => ?_, fun finished => ?_⟩, ?_⟩
  · rw [Job.settle_of_unfinished work unfinished, Job.tells_finished work,
      Outcome.coded_iff_not_mute]
  · exact Job.settle_of_finished finished outcome
  · intro κ size events p run sound
    have coded : Coded events := fun w ticket outcome member =>
      outcome.coded_iff_not_mute.mpr (sound w ticket outcome member)
    exact ⟨fun _ _ _ _ => run.sound.told_tells coded, run.failed_of_heard coded,
      run.failed_of_settled coded, run.failed_of_drained coded⟩

/-- Somebody is there to be told of the one job, which a store ends in the given way. -/
def reporting (outcome : Outcome) : List (Move Nat) :=
  [.start 0 (.ok ()), .caller 0 none, .begin 0 (.setCallback 7), .caller 0 none,
    .begin 0 (.submit (.transfer "in" "out")), .caller 0 none, .caller 0 none, .caller 0 none,
    .caller 0 none, .worker 0, .pushed 0 outcome, .worker 0, .worker 0, .worker 0,
    .worker 0, .worker 0, .notified 0 .returned, .worker 0]

/-- What is heard while a store ends its calls in the given way and somebody is there to be told. -/
def Plain (outcome : Outcome) : Event Nat → Bool
  | .pushed _ _ other => other == outcome
  | .looked _ _ found => found.isSome
  | _ => true

def refusal : Outcome := .failed (.refused "out" 403)

/-- A job that is refused with status 403 is told of with that code. -/
theorem codes_tell_of_refusal : ∃ change : Change Nat,
    (Pool.new single).follow (reporting refusal) = some change ∧
      change.1.pending = 0 ∧ change.1.failed = 1 ∧ Heard change.2 ∧ CodesTell change.2 change.1 ∧
      ((Job.transfer ⟨"in", "out", false, none⟩).settle refusal).1.Tells := by
  have played : ((Pool.new single).follow (reporting refusal)).any (fun change =>
      decide (change.1.pending = 0 ∧ change.1.failed = 1) && change.2.all (Plain refusal)) =
        true := by
    decide
  have loud : ¬ refusal.Mute := nofun
  obtain ⟨change, follows, known⟩ := (Option.any_eq_true _ _).mp played
  obtain ⟨ends, plain⟩ := Bool.and_eq_true_iff.mp known
  obtain ⟨pending, failed⟩ := of_decide_eq_true ends
  have heard : Heard change.2 := fun w ticket member => by
    cases List.all_eq_true.mp plain _ member
  have sound : ∀ w ticket outcome, .pushed w ticket outcome ∈ change.2 → ¬ outcome.Mute :=
    fun w ticket outcome member => by
      cases beq_iff_eq.mp (List.all_eq_true.mp plain _ member)
      exact loud
  exact ⟨change, follows, pending, failed, heard,
    codes_tell.2 (Run.of_follow .start follows) sound, ((codes_tell.1 _ _ rfl).1 rfl).mpr loud⟩

/-- Nobody is there to be told of the one job, which is refused. -/
def unheard : List (Move Nat) :=
  [.start 0 (.ok ()), .caller 0 none, .begin 0 (.submit (.transfer "in" "out")), .caller 0 none,
    .caller 0 none, .caller 0 none, .caller 0 none, .worker 0, .pushed 0 refusal,
    .worker 0, .worker 0, .worker 0, .worker 0, .worker 0, .worker 0]

/-- The moves leave so many jobs pending, and a failure that the pool has counted and that nobody
was told of by its code. -/
def Miscounted (moves : List (Move Nat)) (pending : Nat) : Prop :=
  ∃ change, (Pool.new single).follow moves = some change ∧ change.1.pending = pending ∧
    change.1.failed = 1 ∧ (toldFailures change.2).count true = 0

theorem miscounted_iff (moves : List (Move Nat)) (pending : Nat) : Miscounted moves pending ↔
    ((Pool.new single).follow moves).any (fun change => decide (change.1.pending = pending ∧
      change.1.failed = 1 ∧ (toldFailures change.2).count true = 0)) = true := by
  simp [Miscounted, Option.any_eq_true]

/-- A code that is passed on can be that of a success, in the job and for whoever is told of it.
Besides, somebody must be there to be told, and a failure is counted before it is told of. -/
theorem failures_mute :
    (∀ outcome ∈ [Outcome.failed (.io "in" (.system 0)), .failed (.refused "out" 0)],
      ¬ ((Job.transfer ⟨"in", "out", false, none⟩).settle outcome).1.Tells) ∧
    Miscounted (reporting (.failed (.io "in" (.system 0)))) 0 ∧ Miscounted unheard 0 ∧
      Miscounted ((reporting refusal).take 15) 1 := by
  simp only [miscounted_iff]
  decide

end Pool

end Spool
