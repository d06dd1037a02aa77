import Spool.Proofs.Pool.Turns

/-!
The stages of a pool: it is being built, its building was given up, or it runs. Which calls there
can be depends on the stage, and so does how many workers there are.
-/

namespace Spool

variable {κ : Type}

/-- Why the call schedules jobs or joins workers. -/
def CallPhase.goal? : CallPhase κ → Option Goal
  | .counting _ _ goal | .putting _ goal | .closing goal | .joining _ goal => some goal
  | _ => none

def CallPhase.isStarting : CallPhase κ → Bool
  | .starting _ => true
  | _ => false

namespace Goal

def isAbandon : Goal → Bool
  | .abandon _ => true
  | .submit | .close | .drop => false

theorem goal?_of_next {goal : Goal} {more : Nat} {phase : CallPhase κ}
    (next : goal.next more = some phase) : phase.goal? = some goal ∧ phase.isStarting = false := by
  cases more with
  | zero =>
    cases goal with
    | submit | close => cases next
    | drop | abandon error => cases next; exact ⟨rfl, rfl⟩
  | succ more => cases next; exact ⟨rfl, rfl⟩

end Goal

namespace Pool

/-- The workers are being started, by the only call there is. -/
structure Building (p : Pool κ) : Prop where
  stage : p.lifecycle = .uninitialized
  calls : p.calls = [(builder, .starting p.workers.length)]
  workers : p.workers.length ≤ p.size.workers

/-- A worker could not be started. -/
structure Abandoned (p : Pool κ) : Prop where
  stage : p.lifecycle = .uninitialized
  calls : ∀ c phase, p.call? c = some phase →
    phase.isStarting = false ∧ phase.goal?.any Goal.isAbandon = true
  workers : p.workers.length < p.size.workers

structure Running (p : Pool κ) : Prop where
  stage : p.lifecycle ≠ .uninitialized
  calls : ∀ c phase, p.call? c = some phase →
    phase.isStarting = false ∧ phase.goal?.any Goal.isAbandon = false
  workers : p.workers.length = p.size.workers

/-- Every thread makes one call at a time, and the calls fit the stage. -/
structure Staged (p : Pool κ) : Prop where
  callers : (p.calls.map Prod.fst).Nodup
  capacity : p.queue.capacity = p.size.capacity
  stage : p.Building ∨ p.Abandoned ∨ p.Running

theorem staged_new (size : PoolSize) : (new size : Pool κ).Staged :=
  ⟨List.nodup_cons.mpr ⟨List.not_mem_nil, List.nodup_nil⟩, rfl, .inl ⟨rfl, rfl, Nat.zero_le _⟩⟩

/-- While the pool is built, a caller is its builder, about to start the next worker. -/
theorem Building.eq_starting {p : Pool κ} (building : p.Building) {c : Nat} {phase : CallPhase κ}
    (there : p.call? c = some phase) : c = builder ∧ phase = .starting p.workers.length := by
  have member := mem_of_call? there
  rw [building.calls, List.mem_singleton] at member
  cases member
  exact ⟨rfl, rfl⟩

namespace Staged

variable {p : Pool κ} (staged : p.Staged)
include staged

theorem building {c n : Nat} (there : p.call? c = some (.starting n)) : p.Building := by
  rcases staged.stage with building | abandoned | running
  · exact building
  · cases (abandoned.calls c _ there).1
  · cases (running.calls c _ there).1

theorem running (begun : p.lifecycle ≠ .uninitialized) : p.Running := by
  rcases staged.stage with building | abandoned | running
  · exact absurd building.stage begun
  · exact absurd abandoned.stage begun
  · exact running

theorem running_of_call {c : Nat} {phase : CallPhase κ} (there : p.call? c = some phase)
    (starts : phase.isStarting = false) (abandons : phase.goal?.any Goal.isAbandon = false) :
    p.Running := by
  rcases staged.stage with building | abandoned | running
  · rw [(building.eq_starting there).2] at starts
    cases starts
  · exact absurd ((abandoned.calls c phase there).2.symm.trans abandons) (by decide)
  · exact running

end Staged

theorem capacity_of_callerTurn {p q : Pool κ} {c : Nat} {phase : CallPhase κ}
    {next : Option (CallPhase κ)} {events : List (Event κ)}
    (turn : CallerTurn p c phase next q events) : q.queue.capacity = p.queue.capacity := by
  cases turn <;> simp

theorem capacity_of_workerTurn {p q : Pool κ} {w : Nat} {worker new : Worker} {phase : WorkerPhase}
    {events : List (Event κ)} (turn : WorkerTurn p w worker phase new q events) :
    q.queue.capacity = p.queue.capacity := by
  cases turn <;> simp

theorem calls_of_callerTurn {p q : Pool κ} {c : Nat} {phase : CallPhase κ}
    {next : Option (CallPhase κ)} {events : List (Event κ)}
    (turn : CallerTurn p c phase next q events) : q.calls = p.calls := by
  cases turn <;> rfl

theorem size_of_callerTurn {p q : Pool κ} {c : Nat} {phase : CallPhase κ}
    {next : Option (CallPhase κ)} {events : List (Event κ)}
    (turn : CallerTurn p c phase next q events) : q.size = p.size := by
  cases turn <;> rfl

theorem calls_of_workerTurn {p q : Pool κ} {w : Nat} {worker new : Worker} {phase : WorkerPhase}
    {events : List (Event κ)} (turn : WorkerTurn p w worker phase new q events) :
    q.calls = p.calls ∨ q.calls = p.wakeWaiters.calls ∧ ∃ ticket, phase = .waking ticket := by
  cases turn with
  | wokeExit | woke => exact .inr ⟨rfl, _, rfl⟩
  | _ => exact .inl rfl

theorem frame_of_workerTurn {p q : Pool κ} {w : Nat} {worker new : Worker} {phase : WorkerPhase}
    {events : List (Event κ)} (turn : WorkerTurn p w worker phase new q events) :
    q.size = p.size ∧ q.workers = p.workers := by
  cases turn <;> exact ⟨rfl, rfl⟩

theorem call?_caller {p q : Pool κ} {c : Nat} {phase : CallPhase κ}
    {next : Option (CallPhase κ)} {events : List (Event κ)} (there : p.call? c = some phase)
    (turn : CallerTurn p c phase next q events) (d : Nat) :
    (q.goOn c next).call? d = if d = c then next else p.call? d := by
  have same : ∀ d, q.call? d = p.call? d := fun d => by
    simp only [call?, calls_of_callerTurn turn]
  rw [call?_goOn, same, same, there]
  rfl

theorem callSum_caller {p q : Pool κ} {c : Nat} {phase : CallPhase κ}
    {next : Option (CallPhase κ)} {events : List (Event κ)} (f : CallPhase κ → Nat)
    (callers : (p.calls.map Prod.fst).Nodup) (there : p.call? c = some phase)
    (turn : CallerTurn p c phase next q events) :
    (q.goOn c next).callSum f + f phase = p.callSum f + (next.map f).getD 0 := by
  have same := calls_of_callerTurn turn
  have change := callSum_goOn (p := q) f (same ▸ callers) (by rw [call?, same]; exact there) next
  rw [change, callSum, callSum, same]

theorem callSum_worker {p q : Pool κ} {w : Nat} {worker new : Worker} {phase : WorkerPhase}
    {events : List (Event κ)} {f : CallPhase κ → Nat} (same : f .asleep = f .locking)
    (turn : WorkerTurn p w worker phase new q events) :
    (q.setWorker w new).callSum f = p.callSum f := by
  rcases calls_of_workerTurn turn with unchanged | ⟨woken, _⟩
  · rw [callSum, callSum, setWorker_calls, unchanged]
  · rw [callSum, setWorker_calls, woken]
    exact callSum_wakeWaiters f same

theorem call?_worker {p q : Pool κ} {w : Nat} {worker new : Worker} {phase : WorkerPhase}
    {events : List (Event κ)} (turn : WorkerTurn p w worker phase new q events) (d : Nat) :
    (q.setWorker w new).call? d = p.call? d ∨
      (q.setWorker w new).call? d = (p.call? d).map CallPhase.woken := by
  rcases calls_of_workerTurn turn with same | ⟨woken, _⟩
  · exact .inl (by simp only [call?, setWorker_calls, same])
  · refine .inr ?_
    rw [← call?_wakeWaiters]
    simp only [call?, setWorker_calls, woken]

theorem call?_called (p : Pool κ) {c : Nat} (phase : CallPhase κ) (free : p.call? c = none)
    (d : Nat) : ({ p with calls := p.calls ++ [(c, phase)] } : Pool κ).call? d =
      if d = c then some phase else p.call? d := by
  simp only [call?, List.lookup_append, List.lookup_cons, List.lookup_nil]
  by_cases same : d = c
  · subst same
    simp only [call?] at free
    simp [free]
  · simp [beq_eq_false_iff_ne.mpr same, same]

theorem not_mem_of_call?_none {p : Pool κ} {c : Nat} (free : p.call? c = none) :
    c ∉ p.calls.map Prod.fst := by
  intro member
  obtain ⟨call, known, rfl⟩ := List.mem_map.mp member
  have apart := List.lookup_eq_none_iff.mp free call known
  simp at apart

theorem isStarting_woken (phase : CallPhase κ) :
    (CallPhase.woken phase).isStarting = phase.isStarting := by
  cases phase <;> rfl

theorem goal?_woken (phase : CallPhase κ) : (CallPhase.woken phase).goal? = phase.goal? := by
  cases phase <;> rfl

theorem call_phase_fits (call : Call κ) :
    call.phase.isStarting = false ∧ call.phase.goal?.any Goal.isAbandon = false := by
  cases call <;> exact ⟨rfl, rfl⟩

theorem running_called {p : Pool κ} (running : p.Running) {c : Nat} {call : Call κ}
    (free : p.call? c = none) :
    ({ p with calls := p.calls ++ [(c, call.phase)] } : Pool κ).Running := by
  refine ⟨running.stage, ?_, running.workers⟩
  intro d phase there
  rw [call?_called p call.phase free] at there
  split at there
  · cases there
    exact call_phase_fits call
  · exact running.calls d phase there

theorem running_caller {p q : Pool κ} (running : p.Running) {c : Nat} {phase : CallPhase κ}
    {next : Option (CallPhase κ)} {events : List (Event κ)} (there : p.call? c = some phase)
    (turn : CallerTurn p c phase next q events) : (q.goOn c next).Running := by
  have fits := running.calls c phase there
  refine ⟨?_, ?_, ?_⟩
  · cases turn <;> simp [running.stage]
  · intro d after later
    rw [call?_caller there turn] at later
    split at later
    · cases turn with
      | started | abandoned | built => cases fits.1
      | put | closed =>
        obtain ⟨goal, notStarting⟩ := Goal.goal?_of_next later
        exact ⟨notStarting, goal ▸ fits.2⟩
      | counted | joined => cases later; exact ⟨rfl, fits.2⟩
      | refused | late | allJoined | drained | taken | registered | cleared | switched =>
        cases later
      | _ => cases later; exact ⟨rfl, rfl⟩
    · exact running.calls d after later
  · cases turn with
    | started | abandoned | built => cases fits.1
    | _ => simpa using running.workers

theorem abandoned_caller {p q : Pool κ} (abandoned : p.Abandoned) {c : Nat} {phase : CallPhase κ}
    {next : Option (CallPhase κ)} {events : List (Event κ)} (there : p.call? c = some phase)
    (turn : CallerTurn p c phase next q events) : (q.goOn c next).Abandoned := by
  have fits := abandoned.calls c phase there
  have shut : p.lifecycle.acceptsJobs = false := by rw [abandoned.stage]; rfl
  refine ⟨?_, ?_, ?_⟩
  · cases turn with
    | started | abandoned | built => cases fits.1
    | opened accepts | closed accepts => rw [shut] at accepts; cases accepts
    | _ => simpa using abandoned.stage
  · intro d after later
    rw [call?_caller there turn] at later
    split at later
    · cases turn with
      | started | abandoned | built => cases fits.1
      | put | closed =>
        obtain ⟨goal, notStarting⟩ := Goal.goal?_of_next later
        exact ⟨notStarting, goal ▸ fits.2⟩
      | counted | joined => cases later; exact ⟨rfl, fits.2⟩
      | refused | late | allJoined | drained | taken | registered | cleared | switched =>
        cases later
      | _ => cases fits.2
    · exact abandoned.calls d after later
  · cases turn with
    | started | abandoned | built => cases fits.1
    | _ => simpa using abandoned.workers

theorem building_caller {p q : Pool κ} (building : p.Building) {c : Nat} {phase : CallPhase κ}
    {next : Option (CallPhase κ)} {events : List (Event κ)} (there : p.call? c = some phase)
    (turn : CallerTurn p c phase next q events) :
    (q.goOn c next).Building ∨ (q.goOn c next).Abandoned ∨ (q.goOn c next).Running := by
  obtain ⟨rfl, rfl⟩ := building.eq_starting there
  have only : ∀ d, d ≠ builder → p.call? d = none := by
    intro d other
    cases found : p.call? d with
    | none => rfl
    | some phase => exact absurd (building.eq_starting found).1 other
  have table := fun d => call?_caller there turn d
  generalize known : p.workers.length = n at turn
  cases turn with
  | started more =>
    refine .inl ⟨building.stage, ?_, ?_⟩
    · simp [goOn, setCall, building.calls, known]
    · simp only [goOn_workers, goOn_size, List.length_append, List.length_singleton]
      omega
  | abandoned more =>
    refine .inr (.inl ⟨by simpa using building.stage, ?_, by simpa [known] using more⟩)
    intro d phase later
    rw [table] at later
    split at later
    · obtain ⟨goal, notStarting⟩ := Goal.goal?_of_next later
      exact ⟨notStarting, by rw [goal]; rfl⟩
    · next other => rw [only d other] at later; cases later
  | built =>
    refine .inr (.inr ⟨by simp, ?_, by simpa using known⟩)
    intro d phase later
    rw [table] at later
    split at later
    · cases later
    · next other => rw [only d other] at later; cases later

/-- A worker changes the stage only when it tears the pool down. -/
theorem stage_worker {p q : Pool κ} {w : Nat} {worker new : Worker} {phase : WorkerPhase}
    {events : List (Event κ)} (turn : WorkerTurn p w worker phase new q events)
    (torn : ∀ ticket, phase = .tearing ticket → p.Running)
    (stage : p.Building ∨ p.Abandoned ∨ p.Running) :
    (q.setWorker w new).Building ∨ (q.setWorker w new).Abandoned ∨ (q.setWorker w new).Running := by
  have size := (frame_of_workerTurn turn).1
  have workers : (q.setWorker w new).workers.length = p.workers.length := by
    simp only [setWorker_workers, List.length_set, (frame_of_workerTurn turn).2]
  have lifecycle : q.lifecycle = p.lifecycle ∨ p.Running ∧ q.lifecycle = .tornDown := by
    cases turn with
    | tore => exact .inr ⟨torn _ rfl, rfl⟩
    | _ => exact .inl rfl
  have calls : ∀ d phase, (q.setWorker w new).call? d = some phase → ∃ old,
      p.call? d = some old ∧ phase.isStarting = old.isStarting ∧ phase.goal? = old.goal? := by
    intro d phase there
    rcases call?_worker turn d with same | woken
    · exact ⟨phase, same ▸ there, rfl, rfl⟩
    · rw [woken] at there
      obtain ⟨old, known, rfl⟩ := Option.map_eq_some_iff.mp there
      exact ⟨old, known, isStarting_woken old, goal?_woken old⟩
  rcases stage with building | abandoned | running
  · have same : q.lifecycle = p.lifecycle := by
      rcases lifecycle with same | ⟨running, _⟩
      · exact same
      · exact absurd building.stage running.stage
    refine .inl ⟨same.trans building.stage, ?_, ?_⟩
    · rw [workers, setWorker_calls]
      rcases calls_of_workerTurn turn with unchanged | ⟨woken, _⟩
      · exact unchanged.trans building.calls
      · rw [woken, wakeWaiters_calls, building.calls]
        rfl
    · rw [workers, setWorker_size, size]
      exact building.workers
  · have same : q.lifecycle = p.lifecycle := by
      rcases lifecycle with same | ⟨running, _⟩
      · exact same
      · exact absurd abandoned.stage running.stage
    refine .inr (.inl ⟨same.trans abandoned.stage, ?_, ?_⟩)
    · intro d phase there
      obtain ⟨old, known, starting, goal⟩ := calls d phase there
      rw [starting, goal]
      exact abandoned.calls d old known
    · rw [workers, setWorker_size, size]
      exact abandoned.workers
  · refine .inr (.inr ⟨?_, ?_, ?_⟩)
    · rw [setWorker_lifecycle]
      rcases lifecycle with same | ⟨_, down⟩
      · rw [same]; exact running.stage
      · rw [down]; exact fun impossible => by cases impossible
    · intro d phase there
      obtain ⟨old, known, starting, goal⟩ := calls d phase there
      rw [starting, goal]
      exact running.calls d old known
    · rw [workers, setWorker_size, size]
      exact running.workers

theorem staged_turn {p q : Pool κ} {events : List (Event κ)} (staged : p.Staged)
    (torn : ∀ w worker ticket, p.worker? w = some worker → worker.phase = .tearing ticket →
      p.Running)
    (turn : p.Turn events q) : q.Staged := by
  cases turn with
  | called begun _ free _ =>
    refine ⟨?_, staged.capacity, ?_⟩
    · rw [List.map_append, List.nodup_append]
      refine ⟨staged.callers, List.nodup_cons.mpr ⟨List.not_mem_nil, List.nodup_nil⟩, ?_⟩
      intro d known e new same
      rw [List.map_singleton, List.mem_singleton] at new
      rw [same, new] at known
      exact not_mem_of_call?_none free known
    · exact .inr (.inr (running_called (staged.running begun) free))
  | @dropped c begun _ empty =>
    refine ⟨List.nodup_cons.mpr ⟨List.not_mem_nil, List.nodup_nil⟩, staged.capacity, ?_⟩
    have free : p.call? c = none := by simp [call?, empty]
    have after : ({ p with calls := p.calls ++ [(c, Call.phase .drop)] } : Pool κ).Running :=
      running_called (staged.running begun) free
    rw [empty, List.nil_append] at after
    exact .inr (.inr ⟨after.stage, after.calls, after.workers⟩)
  | @caller c _ next r _ there made =>
    refine ⟨?_, ?_, ?_⟩
    · have keys := keys_goOn_sublist r c next
      rw [calls_of_callerTurn made] at keys
      exact keys.nodup staged.callers
    · rw [goOn_queue, goOn_size, capacity_of_callerTurn made, size_of_callerTurn made]
      exact staged.capacity
    · rcases staged.stage with building | abandoned | running
      · exact building_caller building there made
      · exact .inr (.inl (abandoned_caller abandoned there made))
      · exact .inr (.inr (running_caller running there made))
  | worker there made =>
    refine ⟨?_, ?_, ?_⟩
    · rw [setWorker_calls]
      rcases calls_of_workerTurn made with same | ⟨woken, _⟩
      · exact same ▸ staged.callers
      · rw [woken, keys_wakeWaiters]
        exact staged.callers
    · rw [setWorker_queue, setWorker_size, capacity_of_workerTurn made,
        (frame_of_workerTurn made).1]
      exact staged.capacity
    · exact stage_worker made (fun ticket phase => torn _ _ ticket there phase) staged.stage
  | dozed doze =>
    refine ⟨staged.callers, ?_, ?_⟩
    · exact (Queue.capacity_of_doze doze).trans staged.capacity
    · rcases staged.stage with building | abandoned | running
      · exact .inl ⟨building.stage, building.calls, building.workers⟩
      · exact .inr (.inl ⟨abandoned.stage, abandoned.calls, abandoned.workers⟩)
      · exact .inr (.inr ⟨running.stage, running.calls, running.workers⟩)

end Pool

end Spool
