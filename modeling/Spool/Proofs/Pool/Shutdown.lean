import Spool.Proofs.Pool.Handling
import Spool.Proofs.Pool.Submissions

/-!
A pool that is torn down has drained what was queued ahead of the last termination, and nothing
else: every worker stopped at a termination of its own, and every job in front of the last of these
was handled to the end.
-/

namespace Spool

variable {κ : Type}

namespace Pool

variable {p : Pool κ} {events : List (Event κ)}

theorem Run.size_eq {p₀ : Pool κ} (run : Run p₀ events p) : p.size = p₀.size := by
  induction run with
  | start => rfl
  | next _ made ih =>
    refine Eq.trans ?_ ih
    cases turn_of_step? made with
    | called | dropped | dozed => rfl
    | caller _ turn => rw [goOn_size, size_of_callerTurn turn]
    | worker _ turn => rw [setWorker_size, (frame_of_workerTurn turn).1]

theorem tally_stops (tickets : List Ticket) :
    tally Ticket.stops tickets = tickets.countP fun ticket => ticket.job.isTermination :=
  tally_toNat _ tickets

theorem Sound.executed_le (sound : Sound events p) :
    p.terminationsExecuted ≤ p.workerSum stopWeight := by
  rw [sound.balanced.executed]
  refine tally_mono _ fun worker member => ?_
  obtain ⟨w, there⟩ := List.getElem?_of_mem member
  exact leaveWeight_le (sound.proper.workers w worker there)

theorem Sound.all_stopped (sound : Sound events p) (down : p.lifecycle = .tornDown) :
    p.workers.length = p.size.workers ∧ p.workerSum stopWeight = p.workers.length := by
  have executed := sound.balanced.tornDown down
  have most := workers_le sound.staged
  have few : p.workerSum stopWeight ≤ p.workers.length := workerSum_le stopWeight_le_one
  have left := sound.executed_le
  omega

/-- What a pool has done by the time it is torn down. -/
structure Drained (size : PoolSize) (events : List (Event κ)) (p : Pool κ) : Prop where
  /-- A worker's last job was a termination, and no other. -/
  stops : ∀ w, w < size.workers → StopsLast (removedBy w events)
  /-- Jobs were taken in the order in which they were appended, the rest is still there. -/
  order : appendedTickets events = removedTickets events ++ p.queue.items
  /-- The last job taken is a termination, the last of as many as there are workers. -/
  last : ∃ front ticket, removedTickets events = front ++ [ticket] ∧
    ticket.job.isTermination = true
  count : ((removedTickets events).countP fun ticket => ticket.job.isTermination) = size.workers
  /-- A job that was taken and is no termination was executed, its result handed on, the callback
  in place told of it, and the job released, each of it once. -/
  handled : ∀ w ticket, .removed w ticket ∈ events → ticket.job.isTermination = false →
    ∃ c kind outcome found answer, ticket.Asks kind ∧
      about ticket.serial events =
        .counted c ticket :: .appended c ticket :: handling w kind ticket outcome found answer ∧
      ∃ before after, events = before ++ .looked w (ticket.finished outcome) found :: after ∧
        found = registration before
  /-- Nothing is left when every submission was over before the call began that closed the
  transaction. -/
  left : ∀ before c call during after,
    events = before ++ .called c call :: (during ++ .closed c :: after) → call.closes = true →
      submitting before = [] → (∀ d submission, .called d (.submit submission) ∉ during ++ after) →
        p.queue.items = []

theorem Run.handled_of_down {size : PoolSize} (run : Run (.new size) events p)
    (down : p.lifecycle = .tornDown) {w : Nat} {ticket : Ticket}
    (member : .removed w ticket ∈ events) (work : ticket.job.isTermination = false) :
    ∃ c kind outcome found answer, ticket.Asks kind ∧
      about ticket.serial events =
        .counted c ticket :: .appended c ticket :: handling w kind ticket outcome found answer ∧
      ∃ before after, events = before ++ .looked w (ticket.finished outcome) found :: after ∧
        found = registration before := by
  obtain ⟨c, deeds, record, closed | ⟨phase, there, account⟩⟩ :=
    run.sound.record_of_removed member
  · cases closed with
    | @handled kind outcome found answer asks =>
      refine ⟨c, kind, outcome, found, answer, asks, record, ?_⟩
      have looked : .looked w (ticket.finished outcome) found ∈ events := by
        refine mem_of_about record ?_
        simp [handling]
      obtain ⟨before, after, split⟩ := List.append_of_mem looked
      exact ⟨before, after, split, run.found_eq split⟩
    | stopped _ stop => cases work.symm.trans stop
  · -- a worker that still holds the job has not stopped
    have stopped := isStopped_of_all (run.sound.all_stopped down).2 there
    rw [isStopped_of_account account, work] at stopped
    cases stopped

theorem Run.empty_of_down {size : PoolSize} (run : Run (.new size) events p)
    (down : p.lifecycle = .tornDown) {before during after : List (Event κ)} {c : Nat}
    {call : Call κ} (split : events = before ++ .called c call :: (during ++ .closed c :: after))
    (closes : call.closes = true) (nobody : submitting before = [])
    (none : ∀ d submission, .called d (.submit submission) ∉ during ++ after) :
    p.queue.items = [] := by
  have sorted : p.Sorted := by
    refine run.sorted_of_closed split closes nobody (?_ : Event.closed c ∈ _) ?_
    · exact List.mem_append_right _ List.mem_cons_self
    · intro d submission member
      refine none d submission ?_
      simpa using member
  exact sorted.empty run.sound (run.sound.all_stopped down).2

theorem Run.drained {size : PoolSize} (run : Run (.new size) events p)
    (down : p.lifecycle = .tornDown) : Drained size events p := by
  have sound := run.sound
  have removed := run.removed
  have same : p.size = size := run.size_eq
  obtain ⟨all, stopped⟩ := sound.all_stopped down
  refine ⟨?_, sound.accounted.order, ?_, ?_, ?_, ?_⟩
  · intro w inside
    have took := removed.took w
    have there : p.worker? w = some _ :=
      List.getElem?_eq_getElem (show w < p.workers.length by rw [all, same]; exact inside)
    rw [phase?_of_worker? there] at took
    simpa only [Took, isStopped_of_all stopped (phase?_of_worker? there), if_true] using took
  · refine removed.last stopped fun none => ?_
    have pos := p.size.workers_pos
    rw [← all, none] at pos
    cases pos
  · rw [← tally_stops, removed.stopped, stopped, all, same]
  · exact fun w ticket member work => run.handled_of_down down member work
  · exact fun before c call during after split closes nobody none =>
      run.empty_of_down down split closes nobody none

def oneJob : List (Move Nat) :=
  [.start 0 (.ok ()), .caller 0 none, .begin 0 (.submit (.transform "in" "dir" "")),
    .caller 0 none, .caller 0 none, .caller 0 none, .caller 0 none, .worker 0,
    .pushed 0 (.stored "hash"), .worker 0, .worker 0, .worker 0, .worker 0, .worker 0, .worker 0,
    .worker 0, .begin 0 .endTransaction, .caller 0 none, .caller 0 none, .caller 0 none,
    .worker 0, .worker 0, .worker 0, .worker 0, .worker 0, .worker 0]

/-- A job and the end of the transaction, up to the tear-down. -/
theorem drained_after_one : ∃ change : Change Nat,
    (Pool.new single).follow oneJob = some change ∧ change.1.lifecycle = .tornDown ∧
      Drained single change.2 change.1 := by
  have played : ((Pool.new single).follow oneJob).any (fun change =>
      decide (change.1.lifecycle = .tornDown)) = true := by
    decide
  obtain ⟨change, follows, down⟩ := (Option.any_eq_true _ _).mp played
  have down := of_decide_eq_true down
  exact ⟨change, follows, down, (Run.of_follow .start follows).drained down⟩

end Pool

end Spool
