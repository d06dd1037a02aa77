import Spool.Proofs.Pool.Teardown

/-!
What a pool counts as pending is exact at every moment: the jobs that a call has counted and not
appended, those in the queue, and those that a worker has taken and not released. Hence no worker
takes a job off the pending ones when there is none.
-/

namespace Spool

variable {κ : Type}

namespace Pool

variable {p q : Pool κ} {events more : List (Event κ)} {size : PoolSize}

/-- Calls that have counted a job as pending and have not appended it. -/
def putting (p : Pool κ) : Nat :=
  p.calls.countP fun call => call.2.isPutting

/-- Workers that have taken a job and have not released it. -/
def holding (p : Pool κ) : Nat :=
  p.workers.countP fun worker => worker.phase.held?.isSome

/-- The threads of the calls inside the queue's put. -/
def puttingThreads (p : Pool κ) : List Thread :=
  (p.calls.filter fun call => call.2.isPutting).map fun call => .caller call.1

theorem exists_of_isPutting {phase : CallPhase κ} (puts : phase.isPutting = true) :
    ∃ more goal, phase = .putting more goal := by
  cases phase with
  | putting more goal => exact ⟨more, goal, rfl⟩
  | _ => cases puts

theorem mem_puttingThreads (callers : (p.calls.map Prod.fst).Nodup) (thread : Thread) :
    thread ∈ p.puttingThreads ↔
      ∃ c more goal, thread = .caller c ∧ p.call? c = some (.putting more goal) := by
  constructor
  · intro member
    obtain ⟨call, known, rfl⟩ := List.mem_map.mp member
    obtain ⟨inside, puts⟩ := List.mem_filter.mp known
    obtain ⟨more, goal, phase⟩ := exists_of_isPutting puts
    have there : p.call? call.1 = some call.2 := lookup_of_mem callers inside
    exact ⟨call.1, more, goal, rfl, phase ▸ there⟩
  · rintro ⟨c, more, goal, rfl, there⟩
    have inside : (c, .putting more goal) ∈ p.calls.filter fun call => call.2.isPutting :=
      List.mem_filter.mpr ⟨mem_of_call? there, rfl⟩
    exact List.mem_map.mpr ⟨_, inside, rfl⟩

theorem nodup_puttingThreads (callers : (p.calls.map Prod.fst).Nodup) :
    p.puttingThreads.Nodup := by
  have fewer : p.puttingThreads.Sublist (p.calls.map fun call => Thread.caller call.1) :=
    List.filter_sublist.map _
  exact fewer.nodup (nodup_threads callers)

theorem Sound.putting_eq (sound : Sound events p) : p.putting = p.queue.putters.length := by
  have callers := sound.staged.callers
  have same : p.puttingThreads.Perm (p.queue.putters.map (·.thread)) := by
    apply (List.perm_ext_iff_of_nodup (nodup_puttingThreads callers)
      sound.linked.distinct.putters).mpr
    intro thread
    exact (mem_puttingThreads callers thread).trans (sound.linked.putters thread).symm
  have lengths := same.length_eq
  simp only [puttingThreads, List.length_map] at lengths
  rw [putting, List.countP_eq_length_filter, lengths]

theorem workerSum_held (p : Pool κ) : p.workerSum (heldWeight fun _ => 1) = p.holding := by
  have unit : ∀ phase : WorkerPhase,
      heldWeight (fun _ => 1) phase = phase.held?.isSome.toNat := by
    intro phase
    rw [heldWeight]
    cases phase.held? <;> rfl
  simp only [workerSum, unit]
  exact tally_toNat (fun worker : Worker => worker.phase.held?.isSome) p.workers

theorem Sound.pending_eq_sum (sound : Sound events p) :
    p.pending = p.putting + p.queue.items.length + p.holding := by
  rw [sound.accounted.pending_eq, weigh, tally_one, tally_one, workerSum_held, sound.putting_eq]

theorem holding_pos {w : Nat} {phase : WorkerPhase} (there : p.phase? w = some phase)
    (holds : phase.held?.isSome = true) : 0 < p.holding := by
  obtain ⟨worker, found, rfl⟩ := worker?_of_phase? there
  exact List.countP_pos_iff.mpr ⟨worker, List.mem_of_getElem? found, holds⟩

theorem putting_eq_zero_iff (callers : (p.calls.map Prod.fst).Nodup) :
    p.putting = 0 ↔ ∀ c more goal, p.call? c ≠ some (.putting more goal) := by
  rw [putting, List.countP_eq_zero]
  constructor
  · intro none c more goal there
    exact none _ (mem_of_call? there) rfl
  · intro none call member puts
    obtain ⟨more, goal, phase⟩ := exists_of_isPutting puts
    exact none call.1 more goal (phase ▸ lookup_of_mem callers member)

theorem holding_eq_zero_iff :
    p.holding = 0 ↔ ∀ w phase, p.phase? w = some phase → phase.held? = none := by
  constructor
  · intro none w phase there
    cases held : phase.held? with
    | none => rfl
    | some ticket =>
      have pos := holding_pos there (by rw [held]; rfl)
      omega
  · intro none
    rw [holding, List.countP_eq_zero]
    intro worker member holds
    obtain ⟨w, found⟩ := List.getElem?_of_mem member
    rw [none w worker.phase (phase?_of_worker? found)] at holds
    cases holds

theorem releases_one {w : Nat} {ticket : Ticket} (there : p.phase? w = some (.releasing ticket))
    (some_pending : 0 < p.pending) :
    ∃ q more, p.step? (.worker w) = some (q, more) ∧ q.pending + 1 = p.pending := by
  obtain ⟨worker, found, phase⟩ := worker?_of_phase? there
  simp only [step?, workerStep?, found, phase, nextRound]
  have less : p.pending - 1 + 1 = p.pending := by omega
  split
  · exact ⟨_, _, rfl, less⟩
  · split
    · exact ⟨_, _, rfl, less⟩
    · exact ⟨_, _, rfl, less⟩

/-- What is pending in a pool after all that happened in it. -/
structure PendingExact (events : List (Event κ)) (p : Pool κ) : Prop where
  parts : p.pending = p.putting + p.queue.items.length + p.holding
  counted : (countedTickets events).length = (appendedTickets events).length + p.putting
  removed : (removedTickets events).length = (releasedTickets events).length + p.holding
  moves : ∀ move q more, p.step? move = some (q, more) →
    q.pending + (releasedTickets more).length = p.pending + (countedTickets more).length
  releasing : ∀ w ticket, p.phase? w = some (.releasing ticket) → 0 < p.pending ∧
    ∃ q more, p.step? (.worker w) = some (q, more) ∧ q.pending + 1 = p.pending
  idle : p.pending = 0 ↔ (∀ c more goal, p.call? c ≠ some (.putting more goal)) ∧
    p.queue.items = [] ∧ ∀ w phase, p.phase? w = some phase → phase.held? = none

theorem Run.putting_eq (run : Run (.new size) events p) :
    (countedTickets events).length = (appendedTickets events).length + p.putting := by
  have all := run.counted_eq fun _ => 1
  simp only [tally_one] at all
  rw [all, run.sound.putting_eq, Nat.add_comm]

theorem Run.holding_eq (run : Run (.new size) events p) :
    (removedTickets events).length = (releasedTickets events).length + p.holding := by
  have books := run.sound.accounted
  have counted := run.putting_eq
  have pending := books.pending
  have parts := run.sound.pending_eq_sum
  rw [books.order, List.length_append] at counted
  omega

theorem Sound.idle_iff (sound : Sound events p) :
    p.pending = 0 ↔ (∀ c more goal, p.call? c ≠ some (.putting more goal)) ∧
      p.queue.items = [] ∧ ∀ w phase, p.phase? w = some phase → phase.held? = none := by
  rw [← putting_eq_zero_iff sound.staged.callers, ← holding_eq_zero_iff,
    ← List.length_eq_zero_iff, sound.pending_eq_sum]
  omega

theorem Run.pending_exact (run : Run (.new size) events p) : PendingExact events p where
  parts := run.sound.pending_eq_sum
  counted := run.putting_eq
  removed := run.holding_eq
  moves _ _ _ made := pending_turn run.sound.accounted.pending_eq (turn_of_step? made)
  releasing w ticket there := by
    have held := holding_pos there rfl
    have parts := run.sound.pending_eq_sum
    have pos : 0 < p.pending := by omega
    exact ⟨pos, releases_one there pos⟩
  idle := run.sound.idle_iff

/-- The worker is at a first job, a second one fills the queue, and a third one is held back. -/
def threePending : List (Move Nat) :=
  [.start 0 (.ok ()), .caller 0 none, .begin 0 (.submit (.transfer "a" "out")), .caller 0 none,
    .caller 0 none, .caller 0 none, .caller 0 none, .worker 0,
    .begin 0 (.submit (.transfer "b" "out")), .caller 0 none, .caller 0 none, .caller 0 none,
    .caller 0 none, .begin 1 (.submit (.transform "c" "dir" "")), .caller 1 none, .caller 1 none,
    .caller 1 none, .caller 1 none]

theorem pending_exact_of_three : ∃ change : Change Nat,
    (Pool.new single).follow threePending = some change ∧ change.1.pending = 3 ∧
      change.1.putting = 1 ∧ change.1.queue.items.length = 1 ∧ change.1.holding = 1 ∧
      PendingExact change.2 change.1 := by
  have played : ((Pool.new single).follow threePending).any (fun change =>
      decide (change.1.pending = 3 ∧ change.1.putting = 1 ∧ change.1.queue.items.length = 1 ∧
        change.1.holding = 1)) = true := by
    decide
  obtain ⟨change, follows, parts⟩ := (Option.any_eq_true _ _).mp played
  obtain ⟨all, putting, queued, holding⟩ := of_decide_eq_true parts
  exact ⟨change, follows, all, putting, queued, holding,
    (Run.of_follow .start follows).pending_exact⟩

end Pool

end Spool
