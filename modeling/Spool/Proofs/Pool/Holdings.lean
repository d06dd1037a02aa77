import Spool.Proofs.Pool.History
import Spool.Proofs.Pool.Threads

/-!
Where the jobs are. Every job that was counted and not released is held once: by a put, by the
queue, or by a worker. A quantity of jobs that results do not change is therefore conserved, and
what a pool counts as pending is the number of jobs it holds. The queue keeps their order.
-/

namespace Spool

variable {κ : Type}

/-- The job of a worker that has not been taken off the pending ones. -/
def WorkerPhase.held? : WorkerPhase → Option Ticket
  | .pushing ticket | .counting ticket _ | .countingFailure ticket | .handing ticket
  | .testing ticket | .dispatching ticket | .notifying ticket | .leaving ticket | .tearing ticket
  | .tallying ticket | .releasing ticket => some ticket
  | .fetching | .lastOut _ | .waking _ | .exited => none

namespace Pool

variable {p q : Pool κ} {events : List (Event κ)}

def heldWeight (f : Ticket → Nat) (phase : WorkerPhase) : Nat :=
  (phase.held?.map f).getD 0

/-- A quantity of the jobs that the pool holds. -/
def weigh (f : Ticket → Nat) (p : Pool κ) : Nat :=
  tally (fun putter => f putter.item) p.queue.putters + tally f p.queue.items +
    p.workerSum (heldWeight f)

section Heard

variable (goal : Goal) (c more : Nat)

@[simp] theorem countedTickets_heard :
    countedTickets (goal.heard (κ := κ) c more) = [] := by
  rcases heard_cases goal c more with same | same <;> rw [same] <;> rfl

@[simp] theorem appendedTickets_heard :
    appendedTickets (goal.heard (κ := κ) c more) = [] := by
  rcases heard_cases goal c more with same | same <;> rw [same] <;> rfl

@[simp] theorem removedTickets_heard :
    removedTickets (goal.heard (κ := κ) c more) = [] := by
  rcases heard_cases goal c more with same | same <;> rw [same] <;> rfl

@[simp] theorem removedBy_heard (w : Nat) :
    removedBy w (goal.heard (κ := κ) c more) = [] := by
  rcases heard_cases goal c more with same | same <;> rw [same] <;> rfl

@[simp] theorem releasedTickets_heard :
    releasedTickets (goal.heard (κ := κ) c more) = [] := by
  rcases heard_cases goal c more with same | same <;> rw [same] <;> rfl

end Heard

theorem tally_samePutters (f : Ticket → Nat) {q r : Queue Thread Ticket} (same : q.SamePutters r) :
    tally (fun putter => f putter.item) r.putters =
      tally (fun putter => f putter.item) q.putters := by
  have mapped := congrArg (tally fun pair : Thread × Ticket => f pair.2) same
  simpa only [tally_map] using mapped

/-- What a caller's turn adds to the jobs held is what it counts. -/
theorem weigh_caller (f : Ticket → Nat) (linked : p.Linked) {c : Nat} {phase : CallPhase κ}
    {next : Option (CallPhase κ)} (turn : CallerTurn p c phase next q events) :
    (q.goOn c next).weigh f + tally f (releasedTickets events) =
      p.weigh f + tally f (countedTickets events) := by
  cases turn with
  | started =>
    simp [weigh, workerSum, heldWeight, WorkerPhase.held?, Event.released?, Event.counted?]
  | counted =>
    simp [weigh, workerSum, Event.released?, Event.counted?]
    omega
  | @put more goal putter woken found =>
    obtain ⟨member, thread⟩ := Queue.mem_of_putter? found
    have left := tally_filter (fun putter => f putter.item) linked.distinct.putters member
    simp only [ne_eq, decide_not] at left
    simp [weigh, workerSum, Event.released?, Event.counted?]
    omega
  | _ => simp [weigh, workerSum, Event.released?, Event.counted?]

/-- The quantity does not depend on what became of the job. -/
def Settled (f : Ticket → Nat) : Prop :=
  ∀ serial job outcome, f ⟨serial, (Job.settle job outcome).1⟩ = f ⟨serial, job⟩

/-- What a worker's turn takes from the jobs held is what it releases. -/
theorem weigh_worker {f : Ticket → Nat} (settled : Settled f) {w : Nat} {worker new : Worker}
    (there : p.worker? w = some worker)
    (turn : WorkerTurn p w worker worker.phase new q events) :
    (q.setWorker w new).weigh f + tally f (releasedTickets events) = p.weigh f ∧
      countedTickets events = [] := by
  have change := workerSum_setWorker (heldWeight f) there (frame_of_workerTurn turn).2 new
  generalize worker.phase = phase at turn change
  cases turn with
  | @stopped ticket rest items | @fetched ticket rest _ items =>
    have putters := tally_samePutters f (Queue.samePutters_remove p.queue (.worker w) rest)
    simp [heldWeight, WorkerPhase.held?] at change
    simp [weigh, items, putters, Event.released?, Event.counted?]
    omega
  | pushed =>
    simp [heldWeight, WorkerPhase.held?, settled _ _ _] at change
    simp [weigh, change, Event.released?, Event.counted?]
  | counted | unheard | left =>
    simp only [apply_ite (heldWeight f)] at change
    simp [heldWeight, WorkerPhase.held?] at change
    simp [weigh, change, Event.released?, Event.counted?]
  | _ =>
    simp [heldWeight, WorkerPhase.held?] at change
    simp [weigh, Event.released?, Event.counted?]
    omega

theorem weigh_turn {f : Ticket → Nat} (settled : Settled f) (linked : p.Linked)
    (turn : p.Turn events q) :
    q.weigh f + tally f (releasedTickets events) = p.weigh f + tally f (countedTickets events) := by
  cases turn with
  | called | dropped => simp [weigh, workerSum, Event.released?, Event.counted?]
  | caller _ made => exact weigh_caller f linked made
  | worker there made =>
    obtain ⟨taken, none⟩ := weigh_worker settled there made
    rw [taken, none]
    rfl
  | dozed doze =>
    have putters := tally_samePutters f (Queue.samePutters_of_doze doze)
    simp [weigh, workerSum, Queue.items_of_doze doze, putters]

/-- What a turn puts in and takes out, it puts in behind and takes out in front. -/
theorem items_turn (turn : p.Turn events q) :
    p.queue.items ++ appendedTickets events = removedTickets events ++ q.queue.items := by
  cases turn with
  | called | dropped => simp [Event.appended?, Event.removed?]
  | caller _ made =>
    cases made <;> simp [Event.appended?, Event.removed?]
  | @worker _ worker _ _ _ _ made =>
    generalize worker.phase = phase at made
    cases made with
    | stopped items | fetched items => simp [items, Event.appended?, Event.removed?]
    | _ => simp [Event.appended?, Event.removed?]
  | dozed doze => simp [Queue.items_of_doze doze]

theorem serials_turn (turn : p.Turn events q) :
    List.range q.issued = List.range p.issued ++ (countedTickets events).map (·.serial) := by
  cases turn with
  | called | dropped | dozed => simp [Event.counted?]
  | caller _ made => cases made <;> simp [Event.counted?, List.range_succ]
  | @worker _ worker _ _ _ _ made =>
    generalize worker.phase = phase at made
    cases made <;> simp [Event.counted?]

theorem tally_one {α : Type} (xs : List α) : tally (fun _ => 1) xs = xs.length := by
  induction xs with
  | nil => rfl
  | cons a xs ih => rw [tally_cons, ih, List.length_cons, Nat.add_comm]

theorem pending_turn (fits : p.pending = p.weigh fun _ => 1) (turn : p.Turn events q) :
    q.pending + (releasedTickets events).length =
      p.pending + (countedTickets events).length := by
  cases turn with
  | called | dropped | dozed => simp [Event.counted?, Event.released?]
  | caller _ made => cases made <;> simp [Event.counted?, Event.released?]
  | @worker _ worker _ _ _ there made =>
    have settled : Settled fun _ => 1 := fun _ _ _ => rfl
    have held := (weigh_worker settled there made).1
    generalize worker.phase = phase at made
    cases made with
    | releasedLast | releasedExit | released =>
      simp [Event.released?] at held
      simp [Event.counted?, Event.released?]
      omega
    | _ => simp [Event.counted?, Event.released?]

/-- The books of a pool: every job counted is where it should be. -/
structure Accounted (events : List (Event κ)) (p : Pool κ) : Prop where
  order : appendedTickets events = removedTickets events ++ p.queue.items
  serials : (countedTickets events).map (·.serial) = List.range p.issued
  weight : ∀ f, Settled f →
    p.weigh f + tally f (releasedTickets events) = tally f (countedTickets events)
  pending : p.pending + (releasedTickets events).length = (countedTickets events).length

theorem Accounted.pending_eq (books : Accounted events p) : p.pending = p.weigh fun _ => 1 := by
  have all := books.weight (fun _ => 1) fun _ _ _ => rfl
  have pending := books.pending
  simp only [tally_one] at all
  omega

theorem accounted_new (size : PoolSize) : Accounted [] (new size : Pool κ) :=
  ⟨rfl, rfl, fun _ _ => rfl, rfl⟩

theorem accounted_turn {more : List (Event κ)} (linked : p.Linked)
    (books : Accounted events p) (turn : p.Turn more q) : Accounted (events ++ more) q := by
  refine ⟨?_, ?_, ?_, ?_⟩
  · rw [appendedTickets_append, removedTickets_append, books.order, List.append_assoc,
      items_turn turn, List.append_assoc]
  · rw [countedTickets_append, List.map_append, books.serials, ← serials_turn turn]
  · intro f settled
    have before := books.weight f settled
    have step := weigh_turn settled linked turn
    simp only [releasedTickets_append, countedTickets_append, tally_append]
    omega
  · have before := books.pending
    have step := pending_turn books.pending_eq turn
    simp only [releasedTickets_append, countedTickets_append, List.length_append]
    omega

end Pool

end Spool
