import Spool.Proofs.Pool.Dropping
import Spool.Proofs.Queue.Awake

/-!
A pool that cannot be built. The workers in front of the one that cannot be started are told to leave
and joined, and the error is returned. Nobody else can call the pool by then, so its workers find
nothing but terminations.
-/

namespace Spool

variable {κ : Type}

/-- Why a worker is not there. -/
inductive StartFault
  /-- Its store could not be made. -/
  | noStore (cause : PushError)
  /-- Its thread could not be started. -/
  | notSpawned (reason : String)
  deriving DecidableEq, Repr

/-- The error names the worker. -/
def StartFault.error (worker : Nat) : StartFault → WorkerError
  | noStore cause => .noStore worker cause
  | notSpawned reason => .notSpawned worker reason

namespace Event

def asked? : Event κ → Option Nat
  | asked w => some w
  | _ => none

def joined? : Event κ → Option Nat
  | joined _ w => some w
  | _ => none

def ending? : Event κ → Option Ending
  | ended _ ending => some ending
  | _ => none

end Event

namespace Pool

variable {p q : Pool κ} {events more : List (Event κ)} {size : PoolSize} {k : Nat}
  {error : WorkerError} {outcome : Nat → Except StartFault Unit} {fault : StartFault}

/-- The workers that a store was asked for. -/
def asking (events : List (Event κ)) : List Nat :=
  events.filterMap Event.asked?

/-- The workers that were joined. -/
def joining (events : List (Event κ)) : List Nat :=
  events.filterMap Event.joined?

/-- How calls ended. -/
def endings (events : List (Event κ)) : List Ending :=
  events.filterMap Event.ending?

@[simp] theorem asking_cons (event : Event κ) :
    asking (event :: events) = event.asked?.toList ++ asking events := filterMap_cons_toList ..

@[simp] theorem joining_cons (event : Event κ) :
    joining (event :: events) = event.joined?.toList ++ joining events := filterMap_cons_toList ..

@[simp] theorem endings_cons (event : Event κ) :
    endings (event :: events) = event.ending?.toList ++ endings events := filterMap_cons_toList ..

@[simp] theorem asking_nil : asking ([] : List (Event κ)) = [] := rfl
@[simp] theorem joining_nil : joining ([] : List (Event κ)) = [] := rfl
@[simp] theorem endings_nil : endings ([] : List (Event κ)) = [] := rfl

@[simp] theorem asking_append : asking (events ++ more) = asking events ++ asking more :=
  List.filterMap_append

@[simp] theorem joining_append : joining (events ++ more) = joining events ++ joining more :=
  List.filterMap_append

@[simp] theorem endings_append : endings (events ++ more) = endings events ++ endings more :=
  List.filterMap_append

/-- A worker is started as the outcomes say; all other moves are free. -/
def Grants (outcome : Nat → Except StartFault Unit) (p : Pool κ) : Move κ → Prop
  | .start c reply => ∀ next, p.call? c = some (.starting next) →
      reply = (outcome next).mapError (StartFault.error next)
  | _ => True

/-- What can happen while a pool is built, and after that, if workers are started as the outcomes
say. -/
inductive Launch (size : PoolSize) (outcome : Nat → Except StartFault Unit) :
    List (Event κ) → Pool κ → Prop
  | new : Launch size outcome [] (.new size)
  | next {events : List (Event κ)} {p q : Pool κ} {move : Move κ} {more : List (Event κ)} :
      Launch size outcome events p → Grants outcome p move → p.step? move = some (q, more) →
      Launch size outcome (events ++ more) q

theorem Launch.run (launch : Launch size outcome events p) : Run (.new size) events p := by
  induction launch with
  | new => exact .start
  | next _ _ made ih => exact ih.next made

/-- Where the builder is, by what it has done: how many workers it started, for whom it asked for a
store, how many terminations it counted, whom it joined, and how its call ended. -/
inductive Point (k : Nat) (error : WorkerError) :
    Option (CallPhase κ) → Nat → List Nat → Nat → List Nat → List Ending → Prop
  | starting {n : Nat} : n ≤ k → Point k error (some (.starting n)) n (List.range n) 0 [] []
  | counting {more n : Nat} : n + more + 1 = k →
      Point k error (some (.counting .termination more (.abandon error))) k (List.range (k + 1)) n
        [] []
  | putting {more n : Nat} : n + more = k →
      Point k error (some (.putting more (.abandon error))) k (List.range (k + 1)) n [] []
  | joining {n : Nat} : n ≤ k →
      Point k error (some (.joining n (.abandon error))) k (List.range (k + 1)) k (List.range n) []
  | ended : Point k error none k (List.range (k + 1)) k (List.range k) [.notStarted error]

theorem Point.woken {phase : Option (CallPhase κ)} {started counted : Nat} {asked joined : List Nat}
    {ends : List Ending} (point : Point k error phase started asked counted joined ends) :
    phase.map CallPhase.woken = phase := by
  cases point <;> rfl

theorem Point.next {n more : Nat} (sum : n + more = k) : Point (κ := κ) k error
    ((Goal.abandon error).next more) k (List.range (k + 1)) n [] [] := by
  cases more with
  | zero =>
    cases sum
    exact .joining (Nat.zero_le n)
  | succ more => exact .counting sum

theorem heard_abandon (error : WorkerError) (c more : Nat) :
    (Goal.abandon error).heard (κ := κ) c more = [] := by
  cases more <;> rfl

theorem next_abandon (error : WorkerError) (more : Nat) :
    (Goal.abandon error).next (κ := κ) more ≠ none := by
  cases more <;> nofun

theorem abandon_inj {other : WorkerError} {m n : Nat}
    (same : (Goal.abandon other).next (κ := κ) m = (Goal.abandon error).next n) :
    other = error ∧ m = n := by
  cases m <;> cases n <;> cases same <;> exact ⟨rfl, rfl⟩

theorem Point.of_none {started counted : Nat} {asked joined : List Nat} {ends : List Ending}
    (point : Point (κ := κ) k error none started asked counted joined ends) :
    started = k ∧ asked = List.range (k + 1) ∧ counted = k ∧ joined = List.range k ∧
      ends = [.notStarted error] := by
  cases point
  exact ⟨rfl, rfl, rfl, rfl, rfl⟩

theorem Point.of_starting {n started counted : Nat} {asked joined : List Nat} {ends : List Ending}
    (point : Point (κ := κ) k error (some (.starting n)) started asked counted joined ends) :
    started = n ∧ n ≤ k := by
  cases point with
  | starting le => exact ⟨rfl, le⟩

theorem Point.started_le {phase : Option (CallPhase κ)} {started counted : Nat}
    {asked joined : List Nat} {ends : List Ending}
    (point : Point k error phase started asked counted joined ends) : started ≤ k := by
  cases point with
  | starting le => exact le
  | _ => exact Nat.le_refl k

theorem Point.gone_of_ended {phase : Option (CallPhase κ)} {started counted : Nat}
    {asked joined : List Nat} {ends : List Ending}
    (point : Point k error phase started asked counted joined ends) (ended : ends ≠ []) :
    phase = none := by
  cases point with
  | ended => rfl
  | _ => exact absurd rfl ended

theorem Point.not_asleep {started counted : Nat} {asked joined : List Nat} {ends : List Ending} :
    ¬ Point (κ := κ) k error (some .asleep) started asked counted joined ends := by
  intro point
  cases point

/-- From the workers in front of the one that cannot be started the builder goes on to the next one,
and there it gives up. -/
def Told (k : Nat) (error : WorkerError) (phase : CallPhase κ) (next : Option (CallPhase κ)) : Prop :=
  ∀ n, phase = .starting n → n < k ∧ next = some (.starting (n + 1)) ∨
    n = k ∧ next = (Goal.abandon error).next k

/-- What there is of a pool in which a worker cannot be started. -/
structure Launching (k : Nat) (error : WorkerError) (events : List (Event κ)) (p : Pool κ) :
    Prop where
  sole : p.Sole builder
  stage : p.lifecycle = .uninitialized
  point : Point k error (p.call? builder) p.workers.length (asking events)
    (countedTickets events).length (joining events) (endings events)
  stops : ∀ ticket ∈ countedTickets events, ticket.job.isTermination = true
  unbegun : ∀ w kind ticket, .began w kind ticket ∉ events
  stopped : ∀ w phase, p.phase? w = some phase → phase.isStopped = true ∨ phase = .fetching
  exited : ∀ w ∈ joining events, p.phase? w = some .exited
  last : p.call? builder = none → ∃ before, events = before ++ [.ended builder (.notStarted error)]

theorem launching_new (size : PoolSize) (k : Nat) (error : WorkerError) :
    Launching k error [] (new size : Pool κ) where
  sole := fun c phase there => by
    cases List.mem_singleton.mp (mem_of_call? there)
    rfl
  stage := rfl
  point := .starting (Nat.zero_le k)
  stops := fun _ member => by cases member
  unbegun := fun _ _ _ member => by cases member
  stopped := fun _ _ there => by cases there
  exited := fun _ member => by cases member
  last := fun gone => by cases gone

theorem mem_countedTickets_of_about {serial c : Nat} {ticket : Ticket} {deeds : List (Event κ)}
    (record : about serial events = .counted c ticket :: deeds) : ticket ∈ countedTickets events := by
  have member : .counted c ticket ∈ about serial events := record ▸ List.mem_cons_self
  exact List.mem_filterMap.mpr ⟨.counted c ticket, (List.mem_filter.mp member).1, rfl⟩

theorem silent_of_workerTurn {w : Nat} {worker new : Worker} {phase : WorkerPhase}
    (turn : WorkerTurn p w worker phase new q more) :
    asking more = [] ∧ countedTickets more = [] ∧ joining more = [] ∧ endings more = [] := by
  cases turn <;> exact ⟨rfl, rfl, rfl, rfl⟩

namespace Launching

variable (launching : Launching k error events p)

include launching

theorem stops_item (sound : Sound events p) {ticket : Ticket} (member : ticket ∈ p.queue.items) :
    ticket.job.isTermination = true := by
  obtain ⟨c, record⟩ := sound.recorded.queued ticket member
  exact launching.stops ticket (mem_countedTickets_of_about record)

theorem stopped_worker (sound : Sound events p) {w : Nat} {worker new : Worker}
    (there : p.worker? w = some worker) (turn : WorkerTurn p w worker worker.phase new q more) :
    new.phase.isStopped = true := by
  have known := launching.stopped w _ (phase?_of_worker? there)
  by_cases idle : worker.phase = .fetching
  · rw [idle] at turn
    cases turn with
    | stopped _ none => exact Job.push?_eq_none_iff.mp none
    | fetched items some =>
      have stop := launching.stops_item sound (items ▸ List.mem_cons_self)
      rw [Job.isTermination_of_push? some] at stop
      cases stop
  · rw [(isStopped_worker turn idle).1]
    exact known.resolve_right idle

theorem not_running : ¬ p.Running := fun running => running.stage launching.stage

theorem worker (sound : Sound events p) {w : Nat} {worker new : Worker}
    (there : p.worker? w = some worker) (turn : WorkerTurn p w worker worker.phase new q more) :
    Launching k error (events ++ more) (q.setWorker w new) := by
  have inner : p.Inner (.worker w) more (q.setWorker w new) := .worker there turn
  have known := phase?_of_worker? there
  obtain ⟨asked, counted, joined, ended⟩ := silent_of_workerTurn turn
  have call : (q.setWorker w new).call? builder = p.call? builder :=
    (call?_worker turn builder).elim id fun woken => woken.trans launching.point.woken
  have workers : (q.setWorker w new).workers.length = p.workers.length := by
    rw [setWorker_workers, List.length_set, (frame_of_workerTurn turn).2]
  refine ⟨inner.sole launching.sole, ?_, ?_, ?_, ?_, ?_, ?_, ?_⟩
  · rw [setWorker_lifecycle]
    generalize worker.phase = phase at turn known
    cases turn with
    | tore =>
      exact absurd (running_of_tearing sound.staged sound.proper sound.balanced known)
        launching.not_running
    | _ => exact launching.stage
  · rw [call, workers, asking_append, countedTickets_append, joining_append, endings_append, asked,
      counted, joined, ended]
    simpa only [List.append_nil] using launching.point
  · rw [countedTickets_append, counted, List.append_nil]
    exact launching.stops
  · intro v kind ticket member
    rcases List.mem_append.mp member with before | now
    · exact launching.unbegun v kind ticket before
    · generalize worker.phase = phase at turn
      cases turn with
      | fetched items some =>
        have stop := launching.stops_item sound (items ▸ List.mem_cons_self)
        rw [Job.isTermination_of_push? some] at stop
        cases stop
      | _ => simp at now
  · intro v phase found
    rw [phase?_worker there turn] at found
    split at found
    · cases found
      exact .inl (launching.stopped_worker sound there turn)
    · exact launching.stopped v phase found
  · rw [joining_append, joined, List.append_nil]
    exact fun v member => exited_turn (launching.exited v member) inner.turn
  · rw [call]
    intro gone
    -- nobody is left to make a turn
    have point := launching.point
    rw [gone] at point
    obtain ⟨started, _, _, whom, _⟩ := point.of_none
    have inside : w < p.workers.length := (List.getElem?_eq_some_iff.mp there).1
    have exited := launching.exited w (whom ▸ List.mem_range.mpr (started ▸ inside))
    rw [Option.some.inj (known.symm.trans exited)] at turn
    cases turn

theorem dozed {queue : Queue Thread Ticket} :
    Launching k error (events ++ []) { p with queue } := by
  rw [List.append_nil]
  exact { launching with }

theorem goOn {phase : CallPhase κ} {next : Option (CallPhase κ)}
    (there : p.call? builder = some phase) (turn : CallerTurn p builder phase next q more)
    (stage : q.lifecycle = p.lifecycle)
    (point : Point k error next q.workers.length (asking events ++ asking more)
      ((countedTickets events).length + (countedTickets more).length) (joining events ++ joining more)
      (endings events ++ endings more))
    (stops : ∀ ticket ∈ countedTickets more, ticket.job.isTermination = true)
    (exited : ∀ w ∈ joining more, p.phase? w = some .exited)
    (last : next = none → more = [.ended builder (.notStarted error)]) :
    Launching k error (events ++ more) (q.goOn builder next) := by
  have inner : p.Inner (.caller builder) more (q.goOn builder next) := .caller there turn
  have call : (q.goOn builder next).call? builder = next := by rw [call?_caller there turn, if_pos rfl]
  refine ⟨inner.sole launching.sole, ?_, ?_, ?_, ?_, ?_, ?_, ?_⟩
  · rw [goOn_lifecycle, stage]
    exact launching.stage
  · rw [call, goOn_workers, asking_append, countedTickets_append, joining_append, endings_append,
      List.length_append]
    exact point
  · intro ticket member
    rw [countedTickets_append] at member
    exact (List.mem_append.mp member).elim (launching.stops ticket) (stops ticket)
  · intro w kind ticket member
    rcases List.mem_append.mp member with before | now
    · exact launching.unbegun w kind ticket before
    · cases turn <;> simp [not_heard] at now
  · intro w phase found
    simp only [phase?, worker?, goOn_workers] at found
    rcases workers_of_callerTurn turn with same | ⟨_, started⟩
    · rw [same] at found
      exact launching.stopped w phase found
    · rw [started, phase?_started] at found
      split at found
      · cases found
        exact .inr rfl
      · exact launching.stopped w phase found
  · intro w member
    rw [joining_append] at member
    refine exited_turn ?_ inner.turn
    exact (List.mem_append.mp member).elim (launching.exited w) (exited w)
  · rw [call]
    exact fun gone => ⟨events, congrArg (events ++ ·) (last gone)⟩

theorem caller {phase : CallPhase κ} {next : Option (CallPhase κ)}
    (there : p.call? builder = some phase) (turn : CallerTurn p builder phase next q more)
    (told : Told k error phase next) : Launching k error (events ++ more) (q.goOn builder next) := by
  have goOn := launching.goOn there turn
  have point := launching.point
  rw [there] at point
  generalize asking events = asked at point goOn
  generalize (countedTickets events).length = counted at point goOn
  generalize joining events = joined at point goOn
  generalize endings events = ended at point goOn
  generalize workers : p.workers.length = started at point
  -- the point says what the builder has done, so each phase leaves only the turns that fit it
  cases point with
  | starting le =>
    have told := told _ rfl
    cases turn with
    | started =>
      rcases told with ⟨less, _⟩ | ⟨_, known⟩
      · have point : Point (κ := κ) k error _ _ _ 0 [] [] := .starting less
        rw [List.range_succ] at point
        refine goOn rfl ?_ (by simp [Event.counted?]) (by simp [Event.joined?]) (by simp)
        simpa [Event.asked?, Event.joined?, Event.ending?, Event.counted?, workers] using point
      · cases (Goal.goal?_of_next known.symm).2
    | @abandoned _ other =>
      rcases told with ⟨_, known⟩ | ⟨rfl, known⟩
      · cases (Goal.goal?_of_next known).2
      · obtain ⟨rfl, _⟩ := abandon_inj known
        have point : Point (κ := κ) started other _ _ _ 0 [] [] := .next (Nat.zero_add started)
        rw [List.range_succ] at point
        rw [heard_abandon, workers] at *
        refine goOn rfl ?_ (by simp [Event.counted?]) (by simp [Event.joined?])
          (fun none => absurd none (next_abandon other started))
        simpa [Event.asked?, Event.joined?, Event.ending?, Event.counted?, workers] using point
    | built =>
      rcases told with ⟨_, impossible⟩ | ⟨_, impossible⟩
      · cases impossible
      · exact absurd impossible.symm (next_abandon error _)
  | @counting left _ sum =>
    cases turn with
    | counted =>
      refine goOn rfl ?_ ?_ (by simp [Event.joined?]) (by simp)
      · have sum : counted + 1 + left = k := by omega
        have point : Point (κ := κ) k error _ _ _ _ [] [] := .putting sum
        simpa [Event.asked?, Event.joined?, Event.ending?, Event.counted?, workers] using point
      · intro ticket member
        cases List.mem_singleton.mp member
        rfl
  | @putting left _ sum =>
    cases turn with
    | put =>
      have point : Point (κ := κ) k error _ _ _ _ [] [] := .next sum
      rw [heard_abandon] at *
      refine goOn rfl ?_ (by simp [Event.counted?]) (by simp [Event.joined?])
        (fun none => absurd none (next_abandon error left))
      simpa [Event.asked?, Event.joined?, Event.ending?, Event.counted?, workers] using point
  | @joining next le =>
    cases turn with
    | joined found exited =>
      have inside : next < p.workers.length := (List.getElem?_eq_some_iff.mp found).1
      have point : Point (κ := κ) k error _ k _ k _ [] := .joining (n := next + 1) (workers ▸ inside)
      rw [List.range_succ (n := next)] at point
      refine goOn rfl ?_ (by simp [Event.counted?]) ?_ (by simp)
      · simpa [Event.asked?, Event.joined?, Event.ending?, Event.counted?, workers] using point
      · intro w member
        cases List.mem_singleton.mp member
        exact exited ▸ phase?_of_worker? found
    | allJoined gone =>
      have most : p.workers.length ≤ next := List.getElem?_eq_none_iff.mp gone
      obtain rfl : next = k := Nat.le_antisymm le (workers ▸ most)
      refine goOn rfl ?_ (by simp [Event.counted?]) (by simp [Event.joined?]) fun _ => rfl
      have point : Point (κ := κ) next error none next _ next _ _ := .ended
      simpa [Event.asked?, Event.joined?, Event.ending?, Event.counted?, workers, Goal.ending]
        using point

theorem of_starting {n : Nat} (there : p.call? builder = some (.starting n)) :
    p.workers.length = n ∧ n ≤ k := by
  have point := launching.point
  rw [there] at point
  exact point.of_starting

end Launching

theorem startReply?_cases {c : Nat} {reply : Except WorkerError Unit}
    (made : p.startReply? c reply = some (q, more)) : ∃ n next r,
      p.call? c = some (.starting n) ∧ CallerTurn p c (.starting n) next r more ∧
      q = r.goOn c next ∧ (reply = .ok () ∧ next = some (.starting (n + 1)) ∨
        ∃ e, reply = .error e ∧ next = (Goal.abandon e).next p.workers.length) := by
  unfold startReply? at made
  split at made
  · next n there =>
    split at made
    · next few =>
      split at made
      · cases made
        exact ⟨n, _, _, there, .started few, rfl, .inl ⟨rfl, rfl⟩⟩
      · next e =>
        rw [terminations_eq] at made
        cases made
        exact ⟨n, _, _, there, .abandoned few, rfl, .inr ⟨e, rfl, rfl⟩⟩
    · cases made
  · cases made

/-- A step that the builder or a worker takes by itself, if a worker cannot be started. -/
inductive Advance (k : Nat) (error : WorkerError) (p : Pool κ) : List (Event κ) → Pool κ → Prop
  | builder {phase : CallPhase κ} {next : Option (CallPhase κ)} {q : Pool κ}
      {events : List (Event κ)} : p.call? builder = some phase →
      CallerTurn p builder phase next q events → Told k error phase next →
      Advance k error p events (q.goOn builder next)
  | worker {w : Nat} {worker new : Worker} {q : Pool κ} {events : List (Event κ)} :
      p.worker? w = some worker → WorkerTurn p w worker worker.phase new q events →
      Advance k error p events (q.setWorker w new)
  /-- A thread goes to sleep. -/
  | rests {queue : Queue Thread Ticket} : queue.awake < p.queue.awake →
      Advance k error p [] { p with queue }

theorem advance_of_worker {w : Nat} (stride : p.Stride (.worker w) more q) :
    Advance k error p more q := by
  cases stride with
  | worker there turn => exact .worker there turn
  | dozed found awake => exact .rests (Queue.awake_setGetter found awake)

namespace Launching

variable (launching : Launching k (fault.error k) events p)

include launching

theorem advance (sound : Sound events p) (advance : Advance k (fault.error k) p more q) :
    Launching k (fault.error k) (events ++ more) q := by
  cases advance with
  | builder there turn told => exact launching.caller there turn told
  | worker there turn => exact launching.worker sound there turn
  | rests => exact launching.dozed

theorem advance_of_start (fails : outcome k = .error fault) (fine : ∀ j < k, outcome j = .ok ())
    {c : Nat} {reply : Except WorkerError Unit} (grants : Grants outcome p (.start c reply))
    (made : p.startReply? c reply = some (q, more)) : Advance k (fault.error k) p more q := by
  obtain ⟨n, next, r, there, turn, rfl, became⟩ := startReply?_cases made
  cases launching.sole c _ there
  refine .builder there turn fun m same => ?_
  cases same
  have reply := grants n there
  obtain ⟨workers, le⟩ := launching.of_starting there
  rcases Nat.lt_or_eq_of_le le with less | rfl
  · rw [fine n less] at reply
    rcases became with ⟨_, known⟩ | ⟨e, impossible, _⟩
    · exact .inl ⟨less, known⟩
    · rw [impossible] at reply
      cases reply
  · rw [fails] at reply
    rcases became with ⟨impossible, _⟩ | ⟨e, known, gave⟩
    · rw [impossible] at reply
      cases reply
    · cases known.symm.trans reply
      exact .inr ⟨rfl, workers ▸ gave⟩

theorem advance_of_callerStep? (few : k < p.size.workers) {c : Nat} {woken : Option Thread}
    (made : p.callerStep? c woken = some (q, more)) : Advance k (fault.error k) p more q := by
  cases stride_of_callerStep? made with
  | heldBack found awake => exact .rests (Queue.awake_holdBack found awake)
  | caller there turn =>
    cases launching.sole c _ there
    refine .builder there turn fun n same => ?_
    subst same
    have last : n = p.size.workers := by
      simp only [callerStep?, there] at made
      split at made
      · cases made
      · split at made
        · assumption
        · cases made
    have le := (launching.of_starting there).2
    exact absurd few (Nat.not_lt.mpr (last ▸ le))

theorem advance_of_step? (few : k < p.size.workers) (fails : outcome k = .error fault)
    (fine : ∀ j < k, outcome j = .ok ()) {move : Move κ} (grants : Grants outcome p move)
    (calm : ∀ thread, move ≠ .rouse thread) (made : p.step? move = some (q, more)) :
    Advance k (fault.error k) p more q := by
  cases move with
  | begin c call => simp [step?, begin?, launching.stage] at made
  | start c reply => exact launching.advance_of_start fails fine grants made
  | caller c woken => exact launching.advance_of_callerStep? few made
  | worker w => exact advance_of_worker (stride_of_workerStep? made)
  | pushed w result => exact advance_of_worker (stride_of_pushed? made)
  | notified w answer => exact advance_of_worker (stride_of_notified? made)
  | rouse thread => exact absurd rfl (calm thread)

theorem roused {thread : Thread} (made : p.rouse? thread = some (q, more)) :
    Launching k (fault.error k) (events ++ more) q := by
  unfold rouse? at made
  split at made
  · cases made
    exact launching.dozed
  · split at made
    · cases made
    · split at made
      · next there =>
        have point := launching.point
        rw [← launching.sole _ _ there, there] at point
        exact absurd point Point.not_asleep
      · cases made

end Launching

theorem Launch.launching (few : k < size.workers) (fails : outcome k = .error fault)
    (fine : ∀ j < k, outcome j = .ok ()) (launch : Launch size outcome events p) :
    Launching k (fault.error k) events p := by
  induction launch with
  | new => exact launching_new size k _
  | @next events p q move more goes grants made ih =>
    by_cases calm : ∀ thread, move ≠ .rouse thread
    · have size := goes.run.size_eq
      exact ih.advance goes.run.sound
        (ih.advance_of_step? (size ▸ few) fails fine grants calm made)
    · obtain ⟨thread, same⟩ := Classical.not_forall.mp calm
      cases Classical.not_not.mp same
      exact ih.roused made

end Pool

end Spool
