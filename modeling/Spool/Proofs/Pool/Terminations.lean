import Spool.Proofs.Pool.Threads

/-!
Terminations are as many as workers. Once a pool ends, each worker has a termination that is still to
be scheduled, waits in the queue, or was taken by a worker; a worker takes one at most. The worker
that executes the last one finds that every worker has taken its own.
-/

namespace Spool

variable {κ : Type}

/-- The terminations that the call has yet to put into the queue. -/
def CallPhase.toCome : CallPhase κ → Nat
  | .counting _ more goal | .putting more goal => if goal.isSubmit then 0 else more + 1
  | _ => 0

namespace WorkerPhase

/-- The worker took a termination. -/
def isStopped : WorkerPhase → Bool
  | .pushing ticket | .counting ticket _ | .countingFailure ticket | .handing ticket
  | .testing ticket | .dispatching ticket | .notifying ticket | .leaving ticket | .tearing ticket
  | .tallying ticket | .releasing ticket | .lastOut ticket | .waking ticket =>
    ticket.job.isTermination
  | .exited => true
  | .fetching => false

/-- The worker counted a termination as executed. -/
def hasLeft : WorkerPhase → Bool
  | .tearing _ | .tallying _ | .exited => true
  | .releasing ticket | .lastOut ticket | .waking ticket => ticket.job.isTermination
  | _ => false

theorem isStopped_of_hasLeft {phase : WorkerPhase} (proper : phase.Proper)
    (left : phase.hasLeft = true) : phase.isStopped = true := by
  cases phase with
  | tearing ticket | tallying ticket => exact proper
  | releasing ticket | lastOut ticket | waking ticket => exact left
  | exited => rfl
  | _ => cases left

end WorkerPhase

def stopWeight (phase : WorkerPhase) : Nat := phase.isStopped.toNat

def leaveWeight (phase : WorkerPhase) : Nat := phase.hasLeft.toNat

/-- One for a termination, nothing for any other job. -/
def Ticket.stops (ticket : Ticket) : Nat := ticket.job.isTermination.toNat

theorem Goal.toCome_next {goal : Goal} (many : goal.isSubmit = false) (more : Nat) :
    ((goal.next (κ := κ) more).map CallPhase.toCome).getD 0 = more := by
  cases more with
  | zero => cases goal <;> rfl
  | succ more => simp [Goal.next, CallPhase.toCome, many]

namespace Pool

variable {p q : Pool κ} {events : List (Event κ)}

/-- The terminations that are scheduled, queued or taken. -/
def terminationLoad (p : Pool κ) : Nat :=
  p.callSum CallPhase.toCome + tally Ticket.stops p.queue.items + p.workerSum stopWeight

/-- The pool's transaction is closed, or its building was given up. -/
def isEnding (p : Pool κ) : Bool :=
  !p.lifecycle.acceptsJobs && p.calls.all fun call => !call.2.isStarting

theorem isEnding_of_building (building : p.Building) : p.isEnding = false := by
  simp [isEnding, building.calls, CallPhase.isStarting]

theorem isEnding_eq (callers : (p.calls.map Prod.fst).Nodup)
    (quiet : ∀ c phase, p.call? c = some phase → phase.isStarting = false) :
    p.isEnding = !p.lifecycle.acceptsJobs := by
  have all : (p.calls.all fun call => !call.2.isStarting) = true := by
    refine List.all_eq_true.mpr fun call member => ?_
    rw [quiet call.1 call.2 (lookup_of_mem callers member)]
    rfl
  rw [isEnding, all, Bool.and_true]

theorem Running.isEnding_eq (running : p.Running) (staged : p.Staged) :
    p.isEnding = !p.lifecycle.acceptsJobs :=
  Pool.isEnding_eq staged.callers fun c phase there => (running.calls c phase there).1

/-- A termination for each worker is due when the pool ends, and none before. -/
structure Balanced (p : Pool κ) : Prop where
  load : p.terminationLoad = if p.isEnding then p.workers.length else 0
  executed : p.terminationsExecuted = p.workerSum leaveWeight
  tearing : ∀ w ticket, p.phase? w = some (.tearing ticket) →
    p.terminationsExecuted = p.size.workers
  tornDown : p.lifecycle = .tornDown → p.terminationsExecuted = p.size.workers

theorem leaveWeight_le {phase : WorkerPhase} (proper : phase.Proper) :
    leaveWeight phase ≤ stopWeight phase := by
  unfold leaveWeight stopWeight
  cases left : phase.hasLeft with
  | false => exact Nat.zero_le _
  | true => exact Nat.le_of_eq (by rw [WorkerPhase.isStopped_of_hasLeft proper left])

theorem load_caller (callers : (p.calls.map Prod.fst).Nodup) (proper : p.Proper)
    (linked : p.Linked) {c : Nat} {phase : CallPhase κ} {next : Option (CallPhase κ)}
    (there : p.call? c = some phase) (turn : CallerTurn p c phase next q events)
    (quiet : phase.isStarting = false) :
    q.lifecycle.acceptsJobs = p.lifecycle.acceptsJobs ∧
        (q.goOn c next).terminationLoad = p.terminationLoad ∨
      p.lifecycle.acceptsJobs = true ∧ q.lifecycle.acceptsJobs = false ∧
        (q.goOn c next).terminationLoad = p.terminationLoad + p.size.workers := by
  have change := callSum_caller CallPhase.toCome callers there turn
  have fits := proper.calls c phase there
  cases turn with
  | started | abandoned | built => cases quiet
  | opened accepts =>
    refine .inl ⟨accepts.symm, ?_⟩
    simp [CallPhase.toCome] at change
    simp [terminationLoad, workerSum, change]
  | counted =>
    refine .inl ⟨rfl, ?_⟩
    simp [CallPhase.toCome] at change
    simp [terminationLoad, workerSum, change]
  | @put more goal putter woken found =>
    refine .inl ⟨rfl, ?_⟩
    obtain ⟨member, thread⟩ := Queue.mem_of_putter? found
    have kind := linked.kinds putter member c more goal thread there
    cases submits : goal.isSubmit with
    | true =>
      have last : more = 0 := fits submits
      subst last
      have ended : goal.next (κ := κ) 0 = none := by cases goal <;> first | rfl | cases submits
      rw [ended] at change ⊢
      simp [CallPhase.toCome, submits] at change kind
      simp [terminationLoad, workerSum, change, Ticket.stops, kind]
    | false =>
      have next := Goal.toCome_next (κ := κ) submits more
      simp [CallPhase.toCome, submits, next] at change kind
      simp [terminationLoad, workerSum, Ticket.stops, kind]
      omega
  | closed accepts =>
    refine .inr ⟨accepts, rfl, ?_⟩
    have next := Goal.toCome_next (κ := κ) (show _ = false from fits) p.size.workers
    simp [CallPhase.toCome, next] at change
    simp [terminationLoad, workerSum]
    omega
  | _ =>
    refine .inl ⟨rfl, ?_⟩
    simp [CallPhase.toCome, Goal.isSubmit] at change
    simp [terminationLoad, workerSum, change]

/-- A worker takes a termination from the queue or leaves the load alone. -/
theorem load_worker {w : Nat} {worker new : Worker} (there : p.worker? w = some worker)
    (turn : WorkerTurn p w worker worker.phase new q events) :
    (q.setWorker w new).terminationLoad = p.terminationLoad := by
  have stops := workerSum_setWorker stopWeight there (frame_of_workerTurn turn).2 new
  have calls : (q.setWorker w new).callSum CallPhase.toCome = p.callSum CallPhase.toCome :=
    callSum_worker rfl turn
  generalize worker.phase = phase at turn stops
  cases turn with
  | @stopped ticket rest items none =>
    have stop := Job.push?_eq_none_iff.mp none
    simp [stopWeight, WorkerPhase.isStopped, stop] at stops
    simp [terminationLoad, calls, items, Ticket.stops, stop]
    omega
  | @fetched ticket rest kind items some =>
    have work := Job.isTermination_of_push? some
    simp [stopWeight, WorkerPhase.isStopped, work] at stops
    simp [terminationLoad, calls, items, stops, Ticket.stops, work]
  | pushed =>
    simp [stopWeight, WorkerPhase.isStopped, Job.isTermination_settle] at stops
    simp [terminationLoad, calls, stops]
  | counted | unheard | left =>
    simp only [apply_ite stopWeight] at stops
    simp [stopWeight, WorkerPhase.isStopped] at stops
    simp [terminationLoad, calls, stops]
  | releasedExit _ kind | released _ kind | wokeExit kind | woke kind =>
    simp [stopWeight, WorkerPhase.isStopped, kind] at stops
    simp [terminationLoad, calls, stops]
  | _ =>
    simp [stopWeight, WorkerPhase.isStopped] at stops
    simp [terminationLoad, calls, stops]

theorem executed_worker (proper : p.Proper) {w : Nat} {worker new : Worker}
    (there : p.worker? w = some worker)
    (turn : WorkerTurn p w worker worker.phase new q events) :
    q.terminationsExecuted + p.workerSum leaveWeight =
      p.terminationsExecuted + (q.setWorker w new).workerSum leaveWeight := by
  have leaves := workerSum_setWorker leaveWeight there (frame_of_workerTurn turn).2 new
  have fits := proper.workers w worker there
  generalize worker.phase = phase at turn leaves fits
  cases turn with
  | left =>
    have stop : _ = true := fits
    simp only [apply_ite leaveWeight] at leaves
    simp [leaveWeight, WorkerPhase.hasLeft, stop] at leaves
    simp only
    omega
  | counted =>
    simp only [apply_ite leaveWeight] at leaves
    simp [leaveWeight, WorkerPhase.hasLeft] at leaves
    rw [leaves]
  | @unheard ticket =>
    cases kind : ticket.job.isTermination <;>
      simp [leaveWeight, WorkerPhase.hasLeft, kind] at leaves <;> simp [leaves]
  | answered | tallied =>
    have kind : _ = _ := fits
    simp [leaveWeight, WorkerPhase.hasLeft, kind] at leaves
    simp [leaves]
  | releasedExit _ kind | released _ kind | wokeExit kind | woke kind =>
    simp [leaveWeight, WorkerPhase.hasLeft, kind] at leaves
    simp [leaves]
  | _ =>
    simp [leaveWeight, WorkerPhase.hasLeft] at leaves
    simp [leaves]

theorem workers_le (staged : p.Staged) : p.workers.length ≤ p.size.workers := by
  rcases staged.stage with building | abandoned | running
  · exact building.workers
  · exact Nat.le_of_lt abandoned.workers
  · exact Nat.le_of_eq running.workers

theorem workerSum_le {f : WorkerPhase → Nat} (one : ∀ phase, f phase ≤ 1) :
    p.workerSum f ≤ p.workers.length :=
  tally_le_length _ fun worker => one worker.phase

theorem leaveWeight_le_one (phase : WorkerPhase) : leaveWeight phase ≤ 1 := Bool.toNat_le _

theorem stopWeight_le_one (phase : WorkerPhase) : stopWeight phase ≤ 1 := Bool.toNat_le _

theorem isStopped_of_all (all : p.workerSum stopWeight = p.workers.length) {w : Nat}
    {phase : WorkerPhase} (there : p.phase? w = some phase) : phase.isStopped = true := by
  obtain ⟨worker, found, rfl⟩ := worker?_of_phase? there
  have one := eq_one_of_tally (fun worker : Worker => stopWeight worker.phase)
    (fun worker => stopWeight_le_one worker.phase) all (List.mem_of_getElem? found)
  cases stopped : worker.phase.isStopped with
  | true => rfl
  | false => simp [stopWeight, stopped] at one

theorem Balanced.isEnding {w : Nat} {phase : WorkerPhase} (balanced : p.Balanced)
    (there : p.phase? w = some phase) (stopped : phase.isStopped = true) : p.isEnding = true := by
  have one : 1 ≤ p.terminationLoad := by
    have sum : stopWeight phase ≤ _ := le_workerSum there
    simp only [stopWeight, stopped, Bool.toNat_true] at sum
    exact Nat.le_trans sum (Nat.le_add_left _ _)
  cases ending : p.isEnding with
  | true => rfl
  | false =>
    rw [balanced.load, ending] at one
    cases one

theorem running_of_tearing (staged : p.Staged) (proper : p.Proper) (balanced : p.Balanced) {w : Nat}
    {ticket : Ticket} (there : p.phase? w = some (.tearing ticket)) : p.Running := by
  obtain ⟨worker, found, same⟩ := worker?_of_phase? there
  have fits := proper.workers w worker found
  rw [same] at fits
  have ending := balanced.isEnding there fits
  rcases staged.stage with building | abandoned | running
  · rw [isEnding_of_building building] at ending
    cases ending
  · have all := balanced.tearing w ticket there
    have few : p.workerSum leaveWeight ≤ p.workers.length := workerSum_le leaveWeight_le_one
    have fewer := abandoned.workers
    rw [balanced.executed] at all
    omega
  · exact running

theorem lifecycle_worker (staged : p.Staged) (proper : p.Proper) (balanced : p.Balanced) {w : Nat}
    {worker new : Worker} (there : p.worker? w = some worker)
    (turn : WorkerTurn p w worker worker.phase new q events) :
    q.lifecycle = p.lifecycle ∨ p.Running ∧ q.lifecycle = .tornDown := by
  have known := phase?_of_worker? there
  generalize worker.phase = phase at turn known
  cases turn with
  | tore => exact .inr ⟨running_of_tearing staged proper balanced known, rfl⟩
  | _ => exact .inl rfl

theorem isEnding_worker {w : Nat} {worker new : Worker} {phase : WorkerPhase}
    (turn : WorkerTurn p w worker phase new q events)
    (same : q.lifecycle.acceptsJobs = p.lifecycle.acceptsJobs) :
    (q.setWorker w new).isEnding = p.isEnding := by
  simp only [isEnding, setWorker_lifecycle, same, setWorker_calls]
  rcases calls_of_workerTurn turn with unchanged | ⟨woken, _⟩
  · rw [unchanged]
  · simp only [woken, wakeWaiters_calls, List.all_map, Function.comp_def, isStarting_woken]

theorem balanced_new (size : PoolSize) : (new size : Pool κ).Balanced := by
  refine ⟨rfl, rfl, ?_, ?_⟩
  · intro w ticket there
    cases there
  · intro down
    cases down

theorem isEnding_abandoned (building : p.Building) {error : WorkerError} {n : Nat}
    (callers : ((p.goOn builder ((Goal.abandon error).next n)).calls.map Prod.fst).Nodup) :
    (p.goOn builder ((Goal.abandon error).next n)).isEnding = true := by
  rw [isEnding_eq callers]
  · rw [goOn_lifecycle, building.stage]
    rfl
  · intro d phase found
    rw [call?_goOn] at found
    split at found
    · obtain ⟨old, _, known⟩ := Option.bind_eq_some_iff.mp found
      exact (Goal.goal?_of_next known).2
    · next other => exact absurd (building.eq_starting found).1 other

theorem load_building {c : Nat} {phase : CallPhase κ} {next : Option (CallPhase κ)}
    (staged : p.Staged) (building : p.Building) (balanced : p.Balanced)
    (there : p.call? c = some phase) (turn : CallerTurn p c phase next q events)
    (after : (q.goOn c next).Staged) : (q.goOn c next).terminationLoad =
      if (q.goOn c next).isEnding then (q.goOn c next).workers.length else 0 := by
  have change := callSum_caller CallPhase.toCome staged.callers there turn
  have nothing := balanced.load
  rw [isEnding_of_building building] at nothing
  simp only [terminationLoad, Bool.false_eq_true, if_false] at nothing
  obtain ⟨rfl, rfl⟩ := building.eq_starting there
  generalize known : p.workers.length = n at turn
  cases turn with
  | started =>
    have ending : ({ p with
        workers := p.workers ++ [({} : Worker)]
        queue := p.queue.beginGet (.worker n) }.goOn builder
        (some (.starting (n + 1)))).isEnding = false := by
      simp [isEnding, goOn, setCall, building.calls, CallPhase.isStarting]
    rw [ending]
    simp [CallPhase.toCome] at change
    simp [terminationLoad, workerSum, stopWeight, WorkerPhase.isStopped] at nothing ⊢
    omega
  | @abandoned _ error =>
    have many : (Goal.abandon error).isSubmit = false := rfl
    have toCome := Goal.toCome_next (κ := κ) many p.workers.length
    rw [isEnding_abandoned building after.callers, goOn_workers]
    simp [CallPhase.toCome, toCome] at change
    simp [terminationLoad, workerSum] at nothing ⊢
    omega
  | built =>
    have ending : ({ p with lifecycle := .initialized }.goOn builder none).isEnding = false := rfl
    rw [ending]
    simp [CallPhase.toCome] at change
    simp [terminationLoad, workerSum] at nothing ⊢
    omega

theorem load_of_quiet {c : Nat} {phase : CallPhase κ} {next : Option (CallPhase κ)}
    (staged : p.Staged) (proper : p.Proper) (linked : p.Linked) (balanced : p.Balanced)
    (full : p.lifecycle.acceptsJobs = true → p.workers.length = p.size.workers)
    (there : p.call? c = some phase) (turn : CallerTurn p c phase next q events)
    (after : (q.goOn c next).Staged)
    (before : ∀ d old, p.call? d = some old → old.isStarting = false)
    (later : ∀ d new, (q.goOn c next).call? d = some new → new.isStarting = false) :
    (q.goOn c next).terminationLoad =
      if (q.goOn c next).isEnding then (q.goOn c next).workers.length else 0 := by
  have quiet := before c phase there
  have workers : q.workers = p.workers := by
    rcases workers_of_callerTurn turn with same | ⟨starting, _⟩
    · exact same
    · rw [quiet] at starting
      cases starting
  have was := balanced.load
  rw [isEnding_eq staged.callers before] at was
  rw [isEnding_eq after.callers later, goOn_lifecycle, goOn_workers, workers]
  rcases load_caller staged.callers proper linked there turn quiet with
    ⟨same, load⟩ | ⟨accepts, closed, load⟩
  · rw [load, was, same]
  · rw [accepts] at was
    rw [load, was, closed, full accepts]
    exact Nat.zero_add _

theorem accepts_worker (proper : p.Proper) (balanced : p.Balanced) {w : Nat}
    {worker new : Worker} (there : p.worker? w = some worker)
    (turn : WorkerTurn p w worker worker.phase new q events) :
    q.lifecycle.acceptsJobs = p.lifecycle.acceptsJobs := by
  have fits := proper.workers w worker there
  have known := phase?_of_worker? there
  generalize worker.phase = phase at turn fits known
  cases turn with
  | tore =>
    have ending := balanced.isEnding known fits
    simp only [isEnding, Bool.and_eq_true, Bool.not_eq_true'] at ending
    exact ending.1.symm
  | _ => rfl

theorem toCome_phase (call : Call κ) : call.phase.toCome = 0 := by
  cases call <;> rfl

theorem load_turn (staged : p.Staged) (proper : p.Proper) (linked : p.Linked)
    (balanced : p.Balanced) (turn : p.Turn events q) (after : q.Staged) :
    q.terminationLoad = if q.isEnding then q.workers.length else 0 := by
  cases turn with
  | @called c call =>
    have ending : ({ p with calls := p.calls ++ [(c, call.phase)] } : Pool κ).isEnding =
        p.isEnding := by
      simp only [isEnding, List.all_append, List.all_cons, List.all_nil,
        (call_phase_fits call).1, Bool.not_false, Bool.and_true]
    rw [ending, ← balanced.load]
    simp only [terminationLoad, callSum, workerSum, tally_append, tally_cons, tally_nil,
      toCome_phase, Nat.add_zero]
  | dropped _ _ empty =>
    have same := balanced.load
    simp only [terminationLoad, callSum, workerSum, isEnding, empty] at same ⊢
    exact same
  | caller there made =>
    rcases staged.stage with building | abandoned | running
    · exact load_building staged building balanced there made after
    · have stays := abandoned_caller abandoned there made
      refine load_of_quiet staged proper linked balanced ?_ there made after
        (fun d old found => (abandoned.calls d old found).1)
        fun d new found => (stays.calls d new found).1
      rw [abandoned.stage]
      exact fun impossible => by cases impossible
    · have stays := running_caller running there made
      exact load_of_quiet staged proper linked balanced (fun _ => running.workers) there made after
        (fun d old found => (running.calls d old found).1)
        fun d new found => (stays.calls d new found).1
  | worker there made =>
    rw [load_worker there made, balanced.load,
      isEnding_worker made (accepts_worker proper balanced there made), setWorker_workers,
      List.length_set, (frame_of_workerTurn made).2]
  | dozed doze =>
    have same := balanced.load
    simp only [terminationLoad] at same ⊢
    rw [Queue.items_of_doze doze]
    exact same

theorem executed_caller {c : Nat} {phase : CallPhase κ} {next : Option (CallPhase κ)}
    (turn : CallerTurn p c phase next q events) :
    q.terminationsExecuted = p.terminationsExecuted ∧
      (q.goOn c next).workerSum leaveWeight = p.workerSum leaveWeight := by
  cases turn <;> simp [workerSum, leaveWeight, WorkerPhase.hasLeft]

/-- Terminations are executed one by one, so the worker that sees the last one is the last. -/
theorem executed_lt (staged : p.Staged) (proper : p.Proper) (balanced : p.Balanced) {w : Nat}
    {worker new : Worker} (there : p.worker? w = some worker)
    (turn : WorkerTurn p w worker worker.phase new q events) :
    q.terminationsExecuted ≤ p.size.workers := by
  have step := executed_worker proper there turn
  have sum : (q.setWorker w new).workerSum leaveWeight ≤ _ := workerSum_le leaveWeight_le_one
  have few := workers_le staged
  rw [setWorker_workers, List.length_set, (frame_of_workerTurn turn).2] at sum
  rw [balanced.executed] at step
  omega

theorem balanced_worker (staged : p.Staged) (proper : p.Proper) (balanced : p.Balanced) {w : Nat}
    {worker new : Worker} (there : p.worker? w = some worker)
    (turn : WorkerTurn p w worker worker.phase new q events) :
    (∀ v ticket, (q.setWorker w new).phase? v = some (.tearing ticket) →
        q.terminationsExecuted = q.size.workers) ∧
      (q.lifecycle = .tornDown → q.terminationsExecuted = q.size.workers) := by
  have bound := executed_lt staged proper balanced there turn
  have known := phase?_of_worker? there
  have phases := phase?_worker there turn
  have size := (frame_of_workerTurn turn).1
  -- only the worker that leaves changes the number of terminations executed
  have kept : p.terminationsExecuted = p.size.workers → q.terminationsExecuted = q.size.workers := by
    intro all
    rw [size]
    generalize worker.phase = phase at turn
    cases turn with
    | left =>
      simp only at bound
      omega
    | _ => exact all
  constructor
  · intro v ticket now
    rw [phases] at now
    split at now
    · have tearing := Option.some.inj now
      generalize worker.phase = phase at turn
      cases turn with
      | left =>
        simp only at tearing
        split at tearing
        · next last => exact last
        · cases tearing
      | counted | unheard =>
        simp only at tearing
        split at tearing <;> cases tearing
      | _ => cases tearing
    · exact kept (balanced.tearing v ticket now)
  · intro down
    generalize worker.phase = phase at turn known
    cases turn with
    | tore => exact balanced.tearing w _ known
    | _ => exact kept (balanced.tornDown down)

theorem balanced_turn (staged : p.Staged) (proper : p.Proper) (linked : p.Linked)
    (balanced : p.Balanced) (turn : p.Turn events q) (after : q.Staged) : q.Balanced := by
  refine ⟨load_turn staged proper linked balanced turn after, ?_, ?_, ?_⟩
  · cases turn with
    | called | dropped | dozed => exact balanced.executed
    | caller there made =>
      obtain ⟨same, sum⟩ := executed_caller made
      rw [goOn_terminationsExecuted, same, sum, balanced.executed]
    | worker there made =>
      have step := executed_worker proper there made
      have same := balanced.executed
      rw [setWorker_terminationsExecuted]
      omega
  · cases turn with
    | called | dropped | dozed => exact balanced.tearing
    | caller there made =>
      intro w ticket now
      rw [goOn_terminationsExecuted, goOn_size, (executed_caller made).1, size_of_callerTurn made]
      refine balanced.tearing w ticket ?_
      rcases workers_of_callerTurn made with same | ⟨_, more⟩
      · simpa only [phase?, worker?, goOn_workers, same] using now
      · simp only [phase?, worker?, goOn_workers, more] at now
        rw [phase?_started] at now
        split at now
        · cases now
        · exact now
    | worker there made => exact (balanced_worker staged proper balanced there made).1
  · cases turn with
    | called | dropped | dozed => exact balanced.tornDown
    | caller there made =>
      rw [goOn_terminationsExecuted, goOn_size, (executed_caller made).1, size_of_callerTurn made,
        goOn_lifecycle]
      intro down
      refine balanced.tornDown ?_
      cases made with
      | built | opened | closed => cases down
      | _ => exact down
    | worker there made => exact (balanced_worker staged proper balanced there made).2

theorem not_starting_of_callerTurn {c : Nat} {phase : CallPhase κ} {next : Option (CallPhase κ)}
    (turn : CallerTurn p c phase next q events) (quiet : phase.isStarting = false) :
    ∀ later, next = some later → later.isStarting = false := by
  intro later known
  cases turn with
  | started | abandoned | built => cases quiet
  | put | closed => exact (Goal.goal?_of_next known).2
  | _ => cases known; try rfl

theorem accepts_caller {c : Nat} {phase : CallPhase κ} {next : Option (CallPhase κ)}
    (turn : CallerTurn p c phase next q events) (quiet : phase.isStarting = false) :
    q.lifecycle = p.lifecycle ∨ p.lifecycle.acceptsJobs = true := by
  cases turn with
  | built => cases quiet
  | opened accepts | closed accepts => exact .inr accepts
  | _ => exact .inl rfl

theorem ending_turn (proper : p.Proper) (balanced : p.Balanced)
    (turn : p.Turn events q) (after : q.Staged) (ending : p.isEnding = true) :
    q.isEnding = true := by
  have shut : p.lifecycle.acceptsJobs = false := by
    simp only [isEnding, Bool.and_eq_true, Bool.not_eq_true'] at ending
    exact ending.1
  cases turn with
  | @called c call =>
    simp only [isEnding, Bool.and_eq_true] at ending
    simp only [isEnding, ending.1, List.all_append, ending.2, List.all_cons, List.all_nil,
      (call_phase_fits call).1, Bool.not_false, Bool.and_true]
  | dropped =>
    simp only [isEnding, shut]
    rfl
  | caller there made =>
    have quiet : ∀ d old, p.call? d = some old → old.isStarting = false := by
      intro d old known
      simp only [isEnding, Bool.and_eq_true, List.all_eq_true, Bool.not_eq_true'] at ending
      exact ending.2 (d, old) (mem_of_call? known)
    rw [isEnding_eq after.callers]
    · rcases accepts_caller made (quiet _ _ there) with same | accepts
      · rw [goOn_lifecycle, same, shut]; rfl
      · rw [shut] at accepts
        cases accepts
    · intro d new known
      rw [call?_caller there made] at known
      split at known
      · exact not_starting_of_callerTurn made (quiet _ _ there) new known
      · exact quiet d new known
  | worker there made =>
    rw [isEnding_worker made (accepts_worker proper balanced there made), ending]
  | dozed => exact ending

end Pool

end Spool
