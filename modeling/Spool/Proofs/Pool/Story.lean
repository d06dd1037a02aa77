import Spool.Proofs.Pool.History
import Spool.Proofs.Pool.Holdings

/-!
What a worker does with a job, from taking it to releasing it, as the list of what is heard of it.
A job with work in it is executed, handed on and told of once; a termination is only handed on. In
every phase the worker has got through a first part of that list.
-/

namespace Spool

variable {κ : Type}

/-- The job with the result that an outcome stands for. -/
def Ticket.finished (ticket : Ticket) (outcome : Outcome) : Ticket :=
  { ticket with job := ticket.job.finished outcome }

@[simp] theorem Ticket.serial_finished (ticket : Ticket) (outcome : Outcome) :
    (ticket.finished outcome).serial = ticket.serial := rfl

@[simp] theorem Ticket.isTermination_finished (ticket : Ticket) (outcome : Outcome) :
    (ticket.finished outcome).job.isTermination = ticket.job.isTermination :=
  Job.isTermination_finished ticket.job outcome

/-- The job has no result yet, and is to be pushed in this way. -/
def Ticket.Asks (ticket : Ticket) (kind : PushKind) : Prop :=
  ticket.job.IsFresh ∧ ticket.job.IsFor kind

theorem Ticket.Asks.work {ticket : Ticket} {kind : PushKind} (asks : ticket.Asks kind) :
    ticket.job.isTermination = false :=
  asks.2.isTermination_eq

/-- What is heard of a callback, if one was found. -/
def told (w : Nat) (ticket : Ticket) (outcome : Outcome) (found : Option κ) (answer : Answer) :
    List (Event κ) :=
  match found, ticket.job.report outcome with
  | some callback, some notice =>
    [.notified w (ticket.finished outcome) callback notice,
      .answered w (ticket.finished outcome) answer]
  | _, _ => []

def execution (w : Nat) (kind : PushKind) (ticket : Ticket) (outcome : Outcome) :
    List (Event κ) :=
  [.removed w ticket, .began w kind ticket, .pushed w ticket outcome]

/-- All that is heard of a job that is executed. -/
def handling (w : Nat) (kind : PushKind) (ticket : Ticket) (outcome : Outcome) (found : Option κ)
    (answer : Answer) : List (Event κ) :=
  let done := ticket.finished outcome
  execution w kind ticket outcome ++ [.handed w done, .looked w done found] ++
    told w ticket outcome found answer ++ [.released w done]

/-- All that is heard of a termination. -/
def stopping (w : Nat) (ticket : Ticket) (found : Option κ) : List (Event κ) :=
  [.removed w ticket, .handed w ticket, .looked w ticket found, .released w ticket]

/-- What was heard of the job that a worker holds, which it took as `ticket`. -/
inductive Account (w : Nat) (ticket : Ticket) : WorkerPhase → List (Event κ) → Prop
  | pushing {kind : PushKind} : ticket.Asks kind →
      Account w ticket (.pushing ticket) [.removed w ticket, .began w kind ticket]
  | counting {kind : PushKind} (outcome : Outcome) : ticket.Asks kind →
      Account w ticket (.counting (ticket.finished outcome) outcome.verdict.success)
        (execution w kind ticket outcome)
  | countingFailure {kind : PushKind} (outcome : Outcome) : ticket.Asks kind →
      Account w ticket (.countingFailure (ticket.finished outcome))
        (execution w kind ticket outcome)
  | handing {kind : PushKind} (outcome : Outcome) : ticket.Asks kind →
      Account w ticket (.handing (ticket.finished outcome)) (execution w kind ticket outcome)
  | testing {kind : PushKind} (outcome : Outcome) : ticket.Asks kind →
      Account w ticket (.testing (ticket.finished outcome))
        (execution w kind ticket outcome ++ [.handed w (ticket.finished outcome)])
  | dispatching {kind : PushKind} (outcome : Outcome) : ticket.Asks kind →
      Account w ticket (.dispatching (ticket.finished outcome))
        (execution w kind ticket outcome ++ [.handed w (ticket.finished outcome)])
  | notifying {kind : PushKind} {notice : Notice} (outcome : Outcome) (callback : κ) :
      ticket.Asks kind → ticket.job.report outcome = some notice →
      Account w ticket (.notifying (ticket.finished outcome))
        (execution w kind ticket outcome ++
          [.handed w (ticket.finished outcome),
            .looked w (ticket.finished outcome) (some callback),
            .notified w (ticket.finished outcome) callback notice])
  | releasing {kind : PushKind} (outcome : Outcome) (found : Option κ) (answer : Answer) :
      ticket.Asks kind →
      Account w ticket (.releasing (ticket.finished outcome))
        (execution w kind ticket outcome ++
          [.handed w (ticket.finished outcome), .looked w (ticket.finished outcome) found] ++
          told w ticket outcome found answer)
  | stopHanding : ticket.job.isTermination = true →
      Account w ticket (.handing ticket) [.removed w ticket]
  | stopTesting : ticket.job.isTermination = true →
      Account w ticket (.testing ticket) [.removed w ticket, .handed w ticket]
  | stopDispatching : ticket.job.isTermination = true →
      Account w ticket (.dispatching ticket) [.removed w ticket, .handed w ticket]
  | leaving (found : Option κ) : ticket.job.isTermination = true →
      Account w ticket (.leaving ticket)
        [.removed w ticket, .handed w ticket, .looked w ticket found]
  | tearing (found : Option κ) : ticket.job.isTermination = true →
      Account w ticket (.tearing ticket)
        [.removed w ticket, .handed w ticket, .looked w ticket found]
  | tallying (found : Option κ) : ticket.job.isTermination = true →
      Account w ticket (.tallying ticket)
        [.removed w ticket, .handed w ticket, .looked w ticket found]
  | stopReleasing (found : Option κ) : ticket.job.isTermination = true →
      Account w ticket (.releasing ticket)
        [.removed w ticket, .handed w ticket, .looked w ticket found]

/-- All that was heard of a job that a worker took as `ticket` and released. -/
inductive Closed (w : Nat) (ticket : Ticket) : List (Event κ) → Prop
  | handled {kind : PushKind} (outcome : Outcome) (found : Option κ) (answer : Answer) :
      ticket.Asks kind → Closed w ticket (handling w kind ticket outcome found answer)
  | stopped (found : Option κ) : ticket.job.isTermination = true →
      Closed w ticket (stopping w ticket found)

namespace Pool

variable {p q : Pool κ} {events deeds : List (Event κ)}

theorem held?_of_account {w : Nat} {ticket : Ticket} {phase : WorkerPhase}
    (account : Account w ticket phase deeds) :
    ∃ now, phase.held? = some now ∧ now.serial = ticket.serial := by
  cases account <;> exact ⟨_, rfl, rfl⟩

/-- What a worker does next is the next part of the story. -/
theorem account_worker {w : Nat} {ticket : Ticket} {worker new : Worker} {phase : WorkerPhase}
    (account : Account w ticket phase deeds) (turn : WorkerTurn p w worker phase new q events) :
    Account w ticket new.phase (deeds ++ about ticket.serial events) ∨
      new.phase.held? = none ∧ Closed w ticket (deeds ++ about ticket.serial events) := by
  cases turn with
  | stopped | fetched | locked | wokeExit | woke => cases account
  | @pushed _ outcome =>
    cases account with
    | pushing asks =>
      refine .inl ?_
      have settled := Job.settle_of_isFresh asks.1 asks.work outcome
      simp only [settled]
      simpa [about, Event.serial?, execution, Ticket.finished] using
        Account.counting outcome asks
  | @counted _ success =>
    cases account with
    | counting outcome asks =>
      refine .inl ?_
      simp only [about, List.filter_nil, List.append_nil]
      split
      · exact .handing outcome asks
      · exact .countingFailure outcome asks
  | countedFailure =>
    cases account with
    | countingFailure outcome asks =>
      exact .inl (by simpa [about] using Account.handing outcome asks)
  | handed =>
    cases account with
    | handing outcome asks =>
      exact .inl (by simpa [about, Event.serial?] using Account.testing outcome asks)
    | stopHanding stop =>
      exact .inl (by simpa [about, Event.serial?] using Account.stopTesting stop)
  | tested =>
    cases account with
    | testing outcome asks =>
      exact .inl (by simpa [about] using Account.dispatching outcome asks)
    | stopTesting stop => exact .inl (by simpa [about] using Account.stopDispatching stop)
  | @notified _ callback notice found notes =>
    cases account with
    | dispatching outcome asks =>
      have report : ticket.job.report outcome = some notice :=
        (ticket.job.notice?_finished outcome).symm.trans notes
      refine .inl ?_
      simpa [about, Event.serial?, found] using
        Account.notifying outcome callback asks report
    | stopDispatching stop =>
      rw [Job.isTermination_of_notice? notes] at stop
      cases stop
  | unheard nobody =>
    cases account with
    | dispatching outcome asks =>
      have work : (ticket.finished outcome).job.isTermination = false :=
        (ticket.isTermination_finished outcome).trans asks.work
      have nothing : p.callback = none := by
        refine nobody.resolve_right fun impossible => ?_
        rw [Job.notice?_eq_none_iff.mp impossible] at work
        cases work
      refine .inl ?_
      simpa [about, Event.serial?, work, nothing, told] using
        Account.releasing outcome (none : Option κ) .returned asks
    | stopDispatching stop =>
      refine .inl ?_
      simpa [about, Event.serial?, stop] using Account.leaving p.callback stop
  | @answered _ answer =>
    cases account with
    | notifying outcome callback asks notes =>
      refine .inl ?_
      simpa [about, Event.serial?, told, notes] using
        Account.releasing outcome (some callback) answer asks
  | left =>
    cases account with
    | leaving found stop =>
      refine .inl ?_
      simp only [about, List.filter_nil, List.append_nil]
      split
      · exact .tearing found stop
      · exact .stopReleasing found stop
  | tore =>
    cases account with
    | tearing found stop =>
      exact .inl (by simpa [about, Event.serial?] using Account.tallying found stop)
  | tallied =>
    cases account with
    | tallying found stop =>
      exact .inl (by simpa [about] using Account.stopReleasing found stop)
  | releasedLast | releasedExit | released =>
    refine .inr ⟨rfl, ?_⟩
    cases account with
    | releasing outcome found answer asks =>
      simpa [about, Event.serial?, handling] using Closed.handled outcome found answer asks
    | stopReleasing found stop =>
      simpa [about, Event.serial?, stopping] using Closed.stopped found stop

end Pool

end Spool
