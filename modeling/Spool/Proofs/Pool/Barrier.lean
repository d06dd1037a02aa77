import Spool.Proofs.Pool.Calls
import Spool.Proofs.Pool.Teardown

/-!
Waiting for the drain is a barrier. The call returns when nothing is pending, and then every job
that was counted has been executed, counted among the failures if it failed, and told of. When the
transaction was ended before, the pool is torn down by then.
-/

namespace Spool

variable {κ : Type}

def Event.handed? : Event κ → Option Ticket
  | .handed _ ticket => some ticket
  | _ => none

/-- One for a job that did not succeed. -/
def Ticket.fails (ticket : Ticket) : Nat := (!ticket.job.isSuccessful).toNat

/-- One for a failed job that was handed to the pool and is not among its failures yet. -/
def failWeight : WorkerPhase → Nat
  | .testing ticket => ticket.fails
  | _ => 0

/-- The call waits for the drain. -/
def CallPhase.awaits : CallPhase κ → Bool
  | .locking | .checking | .dozing | .asleep => true
  | _ => false

namespace Pool

variable {p q : Pool κ} {events more : List (Event κ)}

/-- Jobs in the order in which they were handed to the pool, with their results. -/
def handedTickets (events : List (Event κ)) : List Ticket :=
  events.filterMap Event.handed?

section Failures

@[simp] theorem handedTickets_nil : handedTickets ([] : List (Event κ)) = [] := rfl

@[simp] theorem handedTickets_cons (event : Event κ) :
    handedTickets (event :: events) = event.handed?.toList ++ handedTickets events :=
  filterMap_cons_toList ..

theorem handedTickets_append :
    handedTickets (events ++ more) = handedTickets events ++ handedTickets more :=
  List.filterMap_append

theorem handedTickets_heard (goal : Goal) (c left : Nat) :
    handedTickets (goal.heard (κ := κ) c left) = [] := by
  rcases heard_cases (κ := κ) goal c left with same | same <;> rw [same] <;> rfl

theorem failed_caller {c : Nat} {phase : CallPhase κ} {next : Option (CallPhase κ)}
    (turn : CallerTurn p c phase next q more) :
    handedTickets more = [] ∧ q.failed = p.failed ∧
      (q.goOn c next).workerSum failWeight = p.workerSum failWeight := by
  refine ⟨?_, ?_, ?_⟩
  · cases turn with
    | abandoned | put | closed => exact handedTickets_heard ..
    | _ => rfl
  · cases turn <;> rfl
  · cases turn <;> simp [workerSum, failWeight]

theorem failed_worker {w : Nat} {worker new : Worker} {phase : WorkerPhase}
    (turn : WorkerTurn p w worker phase new q more) :
    q.failed + failWeight new.phase =
      p.failed + failWeight phase + tally Ticket.fails (handedTickets more) := by
  cases turn with
  | @tested ticket =>
    cases success : ticket.job.isSuccessful <;>
      simp [failWeight, Ticket.fails, success]
  | counted | unheard | left =>
    simp only [apply_ite failWeight]
    simp [failWeight, Event.handed?]
  | _ => simp [failWeight, Event.handed?]

theorem Run.failed_eq {size : PoolSize} (run : Run (.new size) events p) :
    p.failed + p.workerSum failWeight = tally Ticket.fails (handedTickets events) := by
  refine run.induct_sound (motive := fun events p => p.failed + p.workerSum failWeight =
    tally Ticket.fails (handedTickets events)) rfl ?_
  intro events p q more _ before turn
  rw [handedTickets_append, tally_append, ← before]
  cases turn with
  | called | dropped | dozed => rfl
  | caller _ made =>
    obtain ⟨silent, failed, sum⟩ := failed_caller made
    rw [goOn_failed, silent, failed, sum]
    rfl
  | worker there made =>
    have sums := workerSum_setWorker failWeight there (frame_of_workerTurn made).2 ‹_›
    have step := failed_worker made
    rw [setWorker_failed]
    omega

end Failures

section Drained

/-- When nothing is pending, nobody holds a job. -/
theorem Sound.idle (sound : Sound events p) (none : p.pending = 0) :
    p.queue.putters = [] ∧ p.queue.items = [] ∧
      ∀ worker ∈ p.workers, worker.phase.held? = .none := by
  have all := sound.accounted.pending_eq
  simp only [none, weigh, tally_one] at all
  refine ⟨List.length_eq_zero_iff.mp (by omega), List.length_eq_zero_iff.mp (by omega), ?_⟩
  intro worker member
  have least := le_tally (fun worker : Worker => heldWeight (fun _ => 1) worker.phase) member
  cases held : worker.phase.held? with
  | none => rfl
  | some ticket =>
    simp only [heldWeight, held, Option.map_some, Option.getD_some] at least
    simp only [workerSum, heldWeight] at all
    omega

theorem not_counted_of_closed {c w : Nat} {ticket other : Ticket} {deeds : List (Event κ)}
    (closed : Closed w ticket deeds) : .counted c other ∉ deeds := by
  intro member
  cases closed with
  | handled outcome found answer =>
    simp [handling, execution] at member
    obtain ⟨_, _, _, _, impossible | impossible⟩ := mem_told member <;> cases impossible
  | stopped => simp [stopping] at member

theorem Sound.closed_of_idle (sound : Sound events p) (none : p.pending = 0) {c : Nat}
    {ticket : Ticket} (member : .counted c ticket ∈ events) : ∃ w deeds,
      about ticket.serial events = .counted c ticket :: .appended c ticket :: deeds ∧
        Closed w ticket deeds := by
  have listed : .counted c ticket ∈ about ticket.serial events :=
    List.mem_filter.mpr ⟨member, by simp [Event.serial?]⟩
  have known : ticket.serial < p.issued := sound.recorded.lt_issued (List.ne_nil_of_mem listed)
  have gone : p.weigh (serialIs ticket.serial) = 0 := by
    obtain ⟨putters, items, held⟩ := sound.idle none
    have nobody : p.workerSum (heldWeight (serialIs ticket.serial)) = 0 :=
      tally_eq_zero _ fun worker there => by simp [heldWeight, held worker there]
    rw [weigh, putters, items, nobody]
    rfl
  obtain ⟨d, w, other, deeds, _, record, closed⟩ := sound.recorded.gone _ known gone
  rw [record] at listed
  rcases List.mem_cons.mp listed with same | later
  · cases same
    exact ⟨w, deeds, record, closed⟩
  · rcases List.mem_cons.mp later with same | later
    · cases same
    · exact absurd later (not_counted_of_closed closed)

theorem Run.torn_of_idle {size : PoolSize} (run : Run (.new size) events p)
    (built : p.lifecycle ≠ .uninitialized) (ending : p.isEnding = true)
    (scheduled : p.callSum CallPhase.toCome = 0) (none : p.pending = 0) :
    p.terminationsExecuted = size.workers ∧ p.lifecycle = .tornDown := by
  have sound := run.sound
  have same : p.size = size := run.size_eq
  obtain ⟨_, items, held⟩ := sound.idle none
  have load := sound.balanced.load
  rw [ending, terminationLoad, scheduled, items, (sound.staged.running built).workers] at load
  -- a worker that took a termination and holds no job has executed it
  have left : p.workerSum stopWeight ≤ p.workerSum leaveWeight := by
    refine tally_mono _ fun worker member => ?_
    have free := held worker member
    generalize worker.phase = phase at free
    cases phase <;> first | exact Nat.le_refl _ | cases free
  have tearing : p.workerSum tearWeight = 0 := by
    refine tally_eq_zero _ fun worker member => ?_
    have free := held worker member
    generalize worker.phase = phase at free
    cases phase <;> first | rfl | cases free
  have executed : p.terminationsExecuted = size.workers := by
    have least := sound.executed_le
    have exact := sound.balanced.executed
    simp only [if_true, tally_nil, Nat.zero_add, same] at load
    omega
  have due := run.torn.due
  rw [tearing, same, if_pos executed] at due
  exact ⟨executed, run.torn.stage (by omega)⟩

end Drained

section Waiting

theorem awaits_own {c : Nat} {phase later : CallPhase κ} (awaits : phase.awaits = true)
    (turn : CallerTurn p c phase (some later) q more) : later.awaits = true := by
  generalize known : some later = next at turn
  cases turn with
  | locked | tired | slept | roused => cases known; rfl
  | drained => cases known
  | _ => cases awaits

theorem awaits_woken {phase : CallPhase κ} (awaits : phase.awaits = true) :
    (CallPhase.woken phase).awaits = true := by
  cases phase <;> first | rfl | exact awaits

theorem Run.begun_after (begun : p.lifecycle ≠ .uninitialized) (run : Run p events q) :
    q.lifecycle ≠ .uninitialized := by
  induction run with
  | start => exact begun
  | next _ made ih => exact fun early => ih (uninitialized_of_turn (turn_of_step? made) early).1

theorem Passage.ends_idle {size : PoolSize} {before through heard later : List (Event κ)} {c : Nat}
    {start next last q p : Pool κ}
    (passage : Passage size before c .waitForUpload start next last q p through heard later)
    (inside : ∀ ending, .ended c ending ∉ through) :
    last.pending = 0 ∧ heard = [.ended c .returned] ∧ q.lifecycle = last.lifecycle ∧
      q.terminationsExecuted = last.terminationsExecuted := by
  obtain ⟨phase, r, there, turn, rfl⟩ := passage.ends
  obtain ⟨now, here, awaits⟩ := passage.goes.through (motive := fun _ _ phase => phase.awaits = true)
    (sound_turn passage.begins.sound passage.called) (call?_of_called passage.called) rfl
    (fun _ awaits _ _ same => same.elim (· ▸ awaits) (· ▸ awaits_woken awaits))
    (fun _ awaits _ turn => awaits_own awaits turn) inside
  rw [there] at here
  cases here
  generalize gone : (none : Option (CallPhase κ)) = done at turn
  cases turn with
  | drained none => exact ⟨none, rfl, rfl, rfl⟩
  | locked | tired | slept | roused => cases gone
  | _ => cases awaits

end Waiting

/-- Nothing is pending, and every job that was counted is done with. -/
structure AllDone (events : List (Event κ)) (p : Pool κ) : Prop where
  pending : p.pending = 0
  /-- All that is to be heard of a job was heard. -/
  jobs : ∀ c ticket, .counted c ticket ∈ events → ∃ w deeds,
    about ticket.serial events = .counted c ticket :: .appended c ticket :: deeds ∧
      Closed w ticket deeds
  /-- The job of a submission that returned is one of them: the store's call for it ended, its
  result was handed to the pool, and the callback's call ended if one was in place. -/
  submitted : ∀ before c submission during after,
    Returned events before c (.submit submission) during after →
      ∃ move ticket w kind outcome found answer, ticket.job = submission.job move ∧
        .counted c ticket ∈ during ∧
        about ticket.serial events =
          .counted c ticket :: .appended c ticket :: handling w kind ticket outcome found answer ∧
        ticket.finished outcome ∈ handedTickets events
  /-- The jobs that were handed to the pool and did not succeed are its failures. -/
  failures : p.failed = (handedTickets events).countP fun ticket => !ticket.job.isSuccessful

theorem tally_fails (tickets : List Ticket) :
    tally Ticket.fails tickets = tickets.countP fun ticket => !ticket.job.isSuccessful :=
  tally_toNat _ tickets

theorem mem_handedTickets {w : Nat} {ticket : Ticket} (member : .handed w ticket ∈ events) :
    ticket ∈ handedTickets events :=
  List.mem_filterMap.mpr ⟨_, member, rfl⟩

theorem Run.submitted_of_idle {size : PoolSize} (run : Run (.new size) events p)
    (none : p.pending = 0) {before during after : List (Event κ)} {c : Nat}
    {submission : Submission}
    (returned : Returned events before c (.submit submission) during after) :
    ∃ move ticket w kind outcome found answer, ticket.job = submission.job move ∧
      .counted c ticket ∈ during ∧
      about ticket.serial events =
        .counted c ticket :: .appended c ticket :: handling w kind ticket outcome found answer ∧
      ticket.finished outcome ∈ handedTickets events := by
  obtain ⟨move, ticket, job, counted⟩ := run.counted_of_returned returned
  have known : .counted c ticket ∈ events := by
    rw [returned.split]
    exact List.mem_append_right _ (List.mem_cons_of_mem _ (List.mem_append_left _ counted))
  obtain ⟨w, deeds, record, closed⟩ := run.sound.closed_of_idle none known
  cases closed with
  | @handled kind outcome found answer asks =>
    refine ⟨move, ticket, w, kind, outcome, found, answer, job, counted, record, ?_⟩
    have handed : .handed w (ticket.finished outcome) ∈ events :=
      mem_of_about record (by simp [handling])
    exact mem_handedTickets handed
  | stopped _ stop =>
    rw [job] at stop
    cases submission <;> cases stop

theorem Run.allDone {size : PoolSize} (run : Run (.new size) events p) (none : p.pending = 0) :
    AllDone events p := by
  refine ⟨none, fun c ticket => run.sound.closed_of_idle none,
    fun _ _ _ _ _ => run.submitted_of_idle none, ?_⟩
  have nobody : p.workerSum failWeight = 0 := by
    refine tally_eq_zero _ fun worker member => ?_
    have free := (run.sound.idle none).2.2 worker member
    generalize worker.phase = phase at free
    cases phase <;> first | rfl | cases free
  have failed := run.failed_eq
  rw [nobody, tally_fails] at failed
  exact failed

/-- A job, the end of the transaction, and a wait that begins before the worker has left. -/
def awaited : List (Move Nat) :=
  oneJob ++ [.begin 1 .waitForUpload, .caller 1 none, .caller 1 none, .caller 1 none, .worker 0,
    .worker 0, .worker 0, .worker 0, .caller 1 none, .caller 1 none]

end Pool

end Spool
