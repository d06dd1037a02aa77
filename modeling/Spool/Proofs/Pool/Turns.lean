import Spool.Proofs.Pool.Tables
import Spool.Proofs.Queue.Turns

/-!
What one move does to a pool. A turn takes one thread from a phase to its next one and changes what
the threads share. The moves are opened here once; every invariant is proved turn by turn.
-/

namespace Spool

variable {κ : Type}

/-- The phase of a caller that has so many terminations left to schedule; `none` when there is
nothing left to do. -/
def Goal.next (goal : Goal) : Nat → Option (CallPhase κ)
  | 0 =>
    match goal with
    | .submit | .close => none
    | .drop | .abandon _ => some (.joining 0 goal)
  | more + 1 => some (.counting .termination more goal)

/-- What is heard when the caller goes on with `Goal.next`. -/
def Goal.heard (goal : Goal) (c : Nat) : Nat → List (Event κ)
  | 0 =>
    match goal with
    | .submit | .close => [.ended c .returned]
    | .drop | .abandon _ => []
  | _ + 1 => []

/-- How a call ends that joins all workers. -/
def Goal.ending : Goal → Ending
  | .abandon error => .notStarted error
  | .submit | .close | .drop => .returned

namespace Pool

/-- A caller's turn from a phase to its next one, if any, with what is shared afterwards. -/
inductive CallerTurn (p : Pool κ) (c : Nat) :
    CallPhase κ → Option (CallPhase κ) → Pool κ → List (Event κ) → Prop
  | started {next : Nat} : next < p.size.workers →
      CallerTurn p c (.starting next) (some (.starting (next + 1)))
        { p with workers := p.workers ++ [{}], queue := p.queue.beginGet (.worker next) }
        [.asked next, .started next]
  | abandoned {next : Nat} {error : WorkerError} : next < p.size.workers →
      CallerTurn p c (.starting next) ((Goal.abandon error).next p.workers.length) p
        (.asked next :: (Goal.abandon error).heard c p.workers.length)
  | built : CallerTurn p c (.starting p.size.workers) none
      { p with lifecycle := .initialized } [.ended c .returned]
  | opened {submission : Submission} : p.lifecycle.acceptsJobs = true →
      CallerTurn p c (.opening submission) (some (.making submission))
        { p with lifecycle := .transactionOpen } []
  | refused {submission : Submission} : p.lifecycle.acceptsJobs = false →
      CallerTurn p c (.opening submission) none p
        [.ended c (.aborted (.wrongStage submission.request p.lifecycle))]
  | made {submission : Submission} :
      CallerTurn p c (.making submission)
        (some (.counting (submission.job p.moveMode) 0 .submit)) p []
  | counted {job : Job} {more : Nat} {goal : Goal} :
      CallerTurn p c (.counting job more goal) (some (.putting more goal))
        { p with
          issued := p.issued + 1
          pending := p.pending + 1
          queue := p.queue.beginPut (.caller c) ⟨p.issued, job⟩ }
        [.counted c ⟨p.issued, job⟩]
  | put {more : Nat} {goal : Goal} {putter : Putter Thread Ticket} {woken : Option Thread} :
      p.queue.putter? (.caller c) = some putter → p.queue.isFull = false →
      p.queue.mayWake woken = true →
      CallerTurn p c (.putting more goal) (goal.next more)
        { p with queue := (p.queue.append putter).wakeGetter woken }
        (.appended c putter.item :: goal.heard c more)
  | closed {goal : Goal} : p.lifecycle.acceptsJobs = true →
      CallerTurn p c (.closing goal) (goal.next p.size.workers)
        { p with lifecycle := .transactionClosed }
        (.closed c :: goal.heard c p.size.workers)
  | dropping : p.lifecycle.acceptsJobs = false →
      CallerTurn p c (.closing .drop) (some (.joining 0 .drop)) p []
  | late {goal : Goal} : p.lifecycle.acceptsJobs = false → goal ≠ .drop →
      CallerTurn p c (.closing goal) none p
        [.ended c (.aborted (.wrongStage .endTransaction p.lifecycle))]
  | joined {next : Nat} {goal : Goal} {worker : Worker} : p.worker? next = some worker →
      worker.phase = .exited →
      CallerTurn p c (.joining next goal) (some (.joining (next + 1) goal)) p [.joined c next]
  | allJoined {next : Nat} {goal : Goal} : p.worker? next = none →
      CallerTurn p c (.joining next goal) none p [.ended c goal.ending]
  | locked : p.drainLock = none →
      CallerTurn p c .locking (some .checking) { p with drainLock := some (.caller c) } []
  | drained : p.pending = 0 →
      CallerTurn p c .checking none { p with drainLock := none } [.ended c .returned]
  | tired : p.pending ≠ 0 → CallerTurn p c .checking (some .dozing) p []
  | slept : CallerTurn p c .dozing (some .asleep) { p with drainLock := none } []
  | roused : CallerTurn p c .asleep (some .locking) p []
  | taken {callback : κ} : p.callback.isSome = true → p.isNotifying = false →
      CallerTurn p c (.registering callback) none p [.ended c (.aborted .callbackTaken)]
  | registered {callback : κ} : p.callback = none → p.isNotifying = false →
      CallerTurn p c (.registering callback) none { p with callback := some callback }
        [.registered c callback, .ended c .returned]
  | cleared : p.isNotifying = false →
      CallerTurn p c .clearing none { p with callback := none }
        [.cleared c, .ended c .returned]
  | switched {on : Bool} :
      CallerTurn p c (.switching on) none { p with moveMode := on } [.ended c .returned]

/-- A worker's turn from a phase to its next state, with what is shared afterwards. -/
inductive WorkerTurn (p : Pool κ) (w : Nat) (worker : Worker) :
    WorkerPhase → Worker → Pool κ → List (Event κ) → Prop
  | stopped {ticket : Ticket} {rest : List Ticket} : p.queue.items = ticket :: rest →
      ticket.job.push? = none →
      WorkerTurn p w worker .fetching { worker with phase := .handing ticket }
        { p with queue := p.queue.remove (.worker w) rest } [.removed w ticket]
  | fetched {ticket : Ticket} {rest : List Ticket} {kind : PushKind} :
      p.queue.items = ticket :: rest → ticket.job.push? = some kind →
      WorkerTurn p w worker .fetching { worker with phase := .pushing ticket }
        { p with queue := p.queue.remove (.worker w) rest }
        [.removed w ticket, .began w kind ticket]
  | pushed {ticket : Ticket} {outcome : Outcome} :
      WorkerTurn p w worker (.pushing ticket)
        { worker with
          phase := .counting { ticket with job := (ticket.job.settle outcome).1 }
            (ticket.job.settle outcome).2 }
        p [.pushed w ticket outcome]
  | counted {ticket : Ticket} {success : Bool} :
      WorkerTurn p w worker (.counting ticket success)
        { worker with
          executed := worker.executed + 1
          phase := if success then .handing ticket else .countingFailure ticket }
        p []
  | countedFailure {ticket : Ticket} :
      WorkerTurn p w worker (.countingFailure ticket)
        { worker with failed := worker.failed + 1, phase := .handing ticket } p []
  | handed {ticket : Ticket} :
      WorkerTurn p w worker (.handing ticket) { worker with phase := .testing ticket } p
        [.handed w ticket]
  | tested {ticket : Ticket} :
      WorkerTurn p w worker (.testing ticket) { worker with phase := .dispatching ticket }
        { p with failed := if ticket.job.isSuccessful then p.failed else p.failed + 1 } []
  | notified {ticket : Ticket} {callback : κ} {notice : Notice} : p.callback = some callback →
      ticket.job.notice? = some notice →
      WorkerTurn p w worker (.dispatching ticket) { worker with phase := .notifying ticket } p
        [.looked w ticket p.callback, .notified w ticket callback notice]
  | unheard {ticket : Ticket} : p.callback = none ∨ ticket.job.notice? = none →
      WorkerTurn p w worker (.dispatching ticket)
        { worker with
          phase := if ticket.job.isTermination then .leaving ticket else .releasing ticket }
        p [.looked w ticket p.callback]
  | answered {ticket : Ticket} {answer : Answer} :
      WorkerTurn p w worker (.notifying ticket) { worker with phase := .releasing ticket } p
        [.answered w ticket answer]
  | left {ticket : Ticket} :
      WorkerTurn p w worker (.leaving ticket)
        { worker with
          phase := if p.terminationsExecuted + 1 = p.size.workers then .tearing ticket
            else .releasing ticket }
        { p with terminationsExecuted := p.terminationsExecuted + 1 } []
  | tore {ticket : Ticket} :
      WorkerTurn p w worker (.tearing ticket) { worker with phase := .tallying ticket }
        { p with lifecycle := .tornDown } [.tornDown w]
  | tallied {ticket : Ticket} :
      WorkerTurn p w worker (.tallying ticket) { worker with phase := .releasing ticket }
        { p with teardowns := p.teardowns + 1 } []
  | releasedLast {ticket : Ticket} : p.pending = 1 →
      WorkerTurn p w worker (.releasing ticket) { worker with phase := .lastOut ticket }
        { p with pending := p.pending - 1 } [.released w ticket]
  | releasedExit {ticket : Ticket} : p.pending ≠ 1 → ticket.job.isTermination = true →
      WorkerTurn p w worker (.releasing ticket) { worker with phase := .exited }
        { p with pending := p.pending - 1 } [.released w ticket, .exited w]
  | released {ticket : Ticket} : p.pending ≠ 1 → ticket.job.isTermination = false →
      WorkerTurn p w worker (.releasing ticket) { worker with phase := .fetching }
        { p with pending := p.pending - 1, queue := p.queue.beginGet (.worker w) }
        [.released w ticket]
  | locked {ticket : Ticket} : p.drainLock = none →
      WorkerTurn p w worker (.lastOut ticket) { worker with phase := .waking ticket }
        { p with drainLock := some (.worker w) } []
  | wokeExit {ticket : Ticket} : ticket.job.isTermination = true →
      WorkerTurn p w worker (.waking ticket) { worker with phase := .exited }
        { p with drainLock := none }.wakeWaiters [.exited w]
  | woke {ticket : Ticket} : ticket.job.isTermination = false →
      WorkerTurn p w worker (.waking ticket) { worker with phase := .fetching }
        { p with drainLock := none, queue := p.queue.beginGet (.worker w) }.wakeWaiters []

/-- One move, by whom it is made. -/
inductive Turn (p : Pool κ) : List (Event κ) → Pool κ → Prop
  | called {c : Nat} {call : Call κ} : p.lifecycle ≠ .uninitialized → p.dropped = false →
      p.call? c = none → call ≠ .drop →
      Turn p [.called c call] { p with calls := p.calls ++ [(c, call.phase)] }
  | dropped {c : Nat} : p.lifecycle ≠ .uninitialized → p.dropped = false → p.calls = [] →
      Turn p [.called c .drop] { p with calls := [(c, .closing .drop)], dropped := true }
  | caller {c : Nat} {phase : CallPhase κ} {next : Option (CallPhase κ)} {q : Pool κ}
      {events : List (Event κ)} : p.call? c = some phase → CallerTurn p c phase next q events →
      Turn p events (q.goOn c next)
  | worker {w : Nat} {worker new : Worker} {q : Pool κ} {events : List (Event κ)} :
      p.worker? w = some worker → WorkerTurn p w worker worker.phase new q events →
      Turn p events (q.setWorker w new)
  | dozed {queue : Queue Thread Ticket} : p.queue.Doze queue → Turn p [] { p with queue }

/-- A turn of a thread that is inside the pool. -/
inductive Inner (p : Pool κ) : Thread → List (Event κ) → Pool κ → Prop
  | caller {c : Nat} {phase : CallPhase κ} {next : Option (CallPhase κ)} {q : Pool κ}
      {events : List (Event κ)} : p.call? c = some phase → CallerTurn p c phase next q events →
      Inner p (.caller c) events (q.goOn c next)
  | worker {w : Nat} {worker new : Worker} {q : Pool κ} {events : List (Event κ)} :
      p.worker? w = some worker → WorkerTurn p w worker worker.phase new q events →
      Inner p (.worker w) events (q.setWorker w new)
  | dozed {thread : Thread} {queue : Queue Thread Ticket} : p.queue.Doze queue →
      Inner p thread [] { p with queue }

theorem Inner.turn {p q : Pool κ} {thread : Thread} {events : List (Event κ)}
    (inner : p.Inner thread events q) : p.Turn events q := by
  cases inner with
  | caller there made => exact .caller there made
  | worker there made => exact .worker there made
  | dozed doze => exact .dozed doze

/-- A turn of a thread that does not sleep. It takes the thread on, or has it go to sleep. -/
inductive Stride (p : Pool κ) : Thread → List (Event κ) → Pool κ → Prop
  | caller {c : Nat} {phase : CallPhase κ} {next : Option (CallPhase κ)} {q : Pool κ}
      {events : List (Event κ)} : p.call? c = some phase → CallerTurn p c phase next q events →
      Stride p (.caller c) events (q.goOn c next)
  | worker {w : Nat} {worker new : Worker} {q : Pool κ} {events : List (Event κ)} :
      p.worker? w = some worker → WorkerTurn p w worker worker.phase new q events →
      Stride p (.worker w) events (q.setWorker w new)
  | heldBack {c : Nat} {putter : Putter Thread Ticket} :
      p.queue.putter? (.caller c) = some putter → putter.phase ≠ .asleep → p.queue.isFull = true →
      Stride p (.caller c) [] { p with queue := p.queue.holdBack putter }
  | dozed {w : Nat} {getter : Getter Thread} : p.queue.getter? (.worker w) = some getter →
      getter.phase ≠ .asleep → p.queue.items = [] →
      Stride p (.worker w) [] { p with queue := p.queue.setGetter (.worker w) .asleep }

theorem Stride.inner {p q : Pool κ} {thread : Thread} {events : List (Event κ)}
    (stride : p.Stride thread events q) : p.Inner thread events q := by
  cases stride with
  | caller there made => exact .caller there made
  | worker there made => exact .worker there made
  | heldBack _ awake full => exact .dozed (.heldBack awake full)
  | dozed _ _ empty => exact .dozed (.dozed empty)

theorem terminations_eq (p : Pool κ) (c : Nat) (goal : Goal) (more : Nat) :
    p.terminations c goal more = (p.goOn c (goal.next more), goal.heard c more) := by
  cases more with
  | zero => cases goal <;> rfl
  | succ more => rfl

theorem turn_of_begin? {p q : Pool κ} {c : Nat} {call : Call κ} {events : List (Event κ)}
    (made : p.begin? c call = some (q, events)) : p.Turn events q := by
  unfold begin? at made
  split at made
  · cases made
  · next free =>
    simp only [not_or, Bool.not_eq_true, Option.isSome_eq_false_iff, Option.isNone_iff_eq_none]
      at free
    split at made
    · split at made
      · next empty =>
        cases made
        exact .dropped free.1 free.2.1 (List.isEmpty_iff.mp empty)
      · cases made
    · next other =>
      cases made
      exact .called free.1 free.2.1 free.2.2 other

theorem stride_of_startReply? {p q : Pool κ} {c : Nat} {reply : Except WorkerError Unit}
    {events : List (Event κ)} (made : p.startReply? c reply = some (q, events)) :
    p.Stride (.caller c) events q := by
  unfold startReply? at made
  split at made
  · next next there =>
    split at made
    · next more =>
      split at made
      · cases made
        exact .caller there (.started more)
      · next error =>
        rw [terminations_eq] at made
        cases made
        exact .caller there (.abandoned more)
    · cases made
  · cases made

theorem stride_of_put? {p q : Pool κ} {c more : Nat} {goal : Goal} {woken : Option Thread}
    {events : List (Event κ)} (there : p.call? c = some (.putting more goal))
    (made : p.put? c more goal woken = some (q, events)) : p.Stride (.caller c) events q := by
  unfold put? at made
  split at made
  · next putter queue found turn =>
    rw [terminations_eq] at made
    cases made
    obtain ⟨same, known, _, ⟨impossible, _⟩ | ⟨_, room, may, rfl⟩⟩ :=
      Queue.putTurn?_eq_some turn
    · cases impossible
    · rw [found] at known
      cases known
      exact .caller there (.put found room may)
  · next putter queue found turn =>
    cases made
    obtain ⟨same, known, awake, ⟨_, full, _, rfl⟩ | ⟨impossible, _⟩⟩ :=
      Queue.putTurn?_eq_some turn
    · exact .heldBack known awake full
    · cases impossible
  · cases made

theorem stride_of_join? {p q : Pool κ} {c next : Nat} {goal : Goal} {events : List (Event κ)}
    (there : p.call? c = some (.joining next goal))
    (made : p.join? c next goal = some (q, events)) : p.Stride (.caller c) events q := by
  unfold join? at made
  split at made
  · next worker found =>
    split at made
    · next exited =>
      cases made
      exact .caller there (.joined found exited)
    · cases made
  · next gone =>
    have turn : CallerTurn p c (.joining next goal) none p _ := .allJoined gone
    split at made <;> cases made
    · exact .caller there turn
    · next other =>
      have returned : goal.ending = .returned := by
        cases goal with
        | abandon error => exact absurd rfl (other error)
        | submit | close | drop => rfl
      rw [returned] at turn
      exact .caller there turn

theorem stride_of_callerStep? {p q : Pool κ} {c : Nat} {woken : Option Thread}
    {events : List (Event κ)} (made : p.callerStep? c woken = some (q, events)) :
    p.Stride (.caller c) events q := by
  unfold callerStep? at made
  split at made
  · cases made
  · next phase there =>
    split at made
    · exact stride_of_put? there made
    · split at made
      · cases made
      · split at made
        · cases made
        · cases made
        · next next =>
          split at made
          · next all =>
            cases made
            rw [all] at there
            exact .caller there .built
          · cases made
        · next submission =>
          unfold openTransaction at made
          split at made
          · next accepts =>
            cases made
            exact .caller there (.opened accepts)
          · next closed =>
            cases made
            exact .caller there (.refused (Bool.eq_false_iff.mpr closed))
        · cases made
          exact .caller there .made
        · cases made
          exact .caller there .counted
        · next goal =>
          unfold closeTransaction at made
          split at made
          · next accepts =>
            rw [terminations_eq] at made
            cases made
            exact .caller there (.closed accepts)
          · next closed =>
            have shut := Bool.eq_false_iff.mpr closed
            split at made <;> cases made
            · exact .caller there (.dropping shut)
            · next other => exact .caller there (.late shut other)
        · exact stride_of_join? there made
        · split at made
          · next free =>
            cases made
            exact .caller there (.locked (Option.isNone_iff_eq_none.mp free))
          · cases made
        · split at made <;> cases made
          · next none => exact .caller there (.drained none)
          · next some => exact .caller there (.tired some)
        · cases made
          exact .caller there .slept
        · next callback =>
          split at made
          · cases made
          · next quiet =>
            have quiet := Bool.eq_false_iff.mpr quiet
            split at made <;> cases made
            · next taken => exact .caller there (.taken taken quiet)
            · next free =>
              have free : p.callback = none := by simpa using free
              exact .caller there (.registered free quiet)
        · split at made <;> cases made
          next quiet => exact .caller there (.cleared (Bool.eq_false_iff.mpr quiet))
        · cases made
          exact .caller there .switched

theorem inner_of_rouse? {p q : Pool κ} {thread : Thread} {events : List (Event κ)}
    (made : p.rouse? thread = some (q, events)) : p.Inner thread events q := by
  unfold rouse? at made
  split at made
  · next queue turn =>
    cases made
    exact .dozed (Queue.doze_of_rouse? turn)
  · split at made
    · cases made
    · split at made
      · next there =>
        cases made
        exact .caller there .roused
      · cases made

theorem stride_of_fetch? {p q : Pool κ} {w : Nat} {worker : Worker} {events : List (Event κ)}
    (there : p.worker? w = some worker) (fetching : worker.phase = .fetching)
    (made : p.fetch? w worker = some (q, events)) : p.Stride (.worker w) events q := by
  unfold fetch? at made
  split at made
  · cases made
  · next queue turn =>
    cases made
    obtain ⟨_, found, awake, ⟨_, empty, rfl⟩ | ⟨_, _, impossible, _⟩⟩ :=
      Queue.getTurn?_eq_some turn
    · exact .dozed found awake empty
    · cases impossible
  · next queue ticket turn =>
    obtain ⟨_, _, _, ⟨impossible, _⟩ | ⟨_, rest, got, items, rfl⟩⟩ := Queue.getTurn?_eq_some turn
    · cases impossible
    · cases got
      split at made <;> cases made
      · next none => exact .worker there (fetching ▸ .stopped items none)
      · next kind some => exact .worker there (fetching ▸ .fetched items some)

theorem stride_of_dispatch {p q : Pool κ} {w : Nat} {worker : Worker} {ticket : Ticket}
    {events : List (Event κ)} (there : p.worker? w = some worker)
    (phase : worker.phase = .dispatching ticket)
    (made : p.dispatch w worker ticket = (q, events)) : p.Stride (.worker w) events q := by
  unfold dispatch at made
  split at made
  · next callback notice found told =>
    cases made
    exact .worker there (phase ▸ .notified found told)
  · next nobody =>
    cases made
    refine .worker there (phase ▸ .unheard ?_)
    cases found : p.callback with
    | none => exact .inl rfl
    | some callback =>
      cases told : ticket.job.notice? with
      | none => exact .inr rfl
      | some notice => exact absurd told (nobody callback notice found)

theorem stride_of_workerStep? {p q : Pool κ} {w : Nat} {events : List (Event κ)}
    (made : p.workerStep? w = some (q, events)) : p.Stride (.worker w) events q := by
  unfold workerStep? at made
  split at made
  · cases made
  · next worker there =>
    split at made
    · next phase => exact stride_of_fetch? there phase made
    · next phase =>
      cases made
      exact .worker there (phase ▸ .counted)
    · next phase =>
      cases made
      exact .worker there (phase ▸ .countedFailure)
    · next phase =>
      cases made
      exact .worker there (phase ▸ .handed)
    · next phase =>
      cases made
      exact .worker there (phase ▸ .tested)
    · next phase => exact stride_of_dispatch there phase (Option.some.inj made)
    · next phase =>
      cases made
      exact .worker there (phase ▸ .left)
    · next phase =>
      cases made
      exact .worker there (phase ▸ .tore)
    · next phase =>
      cases made
      exact .worker there (phase ▸ .tallied)
    · next ticket phase =>
      split at made
      · next last =>
        cases made
        exact .worker there (phase ▸ .releasedLast last)
      · next more =>
        unfold nextRound at made
        cases kind : ticket.job.isTermination with
        | true =>
          rw [kind] at made
          cases made
          exact .worker there (phase ▸ .releasedExit more kind)
        | false =>
          rw [kind] at made
          cases made
          have turn : WorkerTurn p w worker (.releasing ticket) _ _ _ := .released more kind
          exact .worker there (phase ▸ turn)
    · next phase =>
      split at made
      · next free =>
        cases made
        exact .worker there (phase ▸ .locked (Option.isNone_iff_eq_none.mp free))
      · cases made
    · next ticket phase =>
      unfold nextRound at made
      cases kind : ticket.job.isTermination with
      | true =>
        rw [kind] at made
        cases made
        exact .worker there (phase ▸ .wokeExit kind)
      | false =>
        rw [kind] at made
        cases made
        have turn : WorkerTurn p w worker (.waking ticket) _ _ _ := .woke kind
        exact .worker there (phase ▸ turn)
    · cases made
    · cases made
    · cases made

theorem stride_of_pushed? {p q : Pool κ} {w : Nat} {outcome : Outcome} {events : List (Event κ)}
    (made : p.pushed? w outcome = some (q, events)) : p.Stride (.worker w) events q := by
  unfold pushed? at made
  split at made
  · next worker there =>
    split at made
    · next phase =>
      cases made
      exact .worker there (phase ▸ .pushed)
    · cases made
  · cases made

theorem stride_of_notified? {p q : Pool κ} {w : Nat} {answer : Answer} {events : List (Event κ)}
    (made : p.notified? w answer = some (q, events)) : p.Stride (.worker w) events q := by
  unfold notified? at made
  split at made
  · next worker there =>
    split at made
    · next phase =>
      cases made
      exact .worker there (phase ▸ .answered)
    · cases made
  · cases made

theorem inner_of_startReply? {p q : Pool κ} {c : Nat} {reply : Except WorkerError Unit}
    {events : List (Event κ)} (made : p.startReply? c reply = some (q, events)) :
    p.Inner (.caller c) events q :=
  (stride_of_startReply? made).inner

theorem inner_of_callerStep? {p q : Pool κ} {c : Nat} {woken : Option Thread}
    {events : List (Event κ)} (made : p.callerStep? c woken = some (q, events)) :
    p.Inner (.caller c) events q :=
  (stride_of_callerStep? made).inner

theorem inner_of_workerStep? {p q : Pool κ} {w : Nat} {events : List (Event κ)}
    (made : p.workerStep? w = some (q, events)) : p.Inner (.worker w) events q :=
  (stride_of_workerStep? made).inner

theorem inner_of_pushed? {p q : Pool κ} {w : Nat} {outcome : Outcome} {events : List (Event κ)}
    (made : p.pushed? w outcome = some (q, events)) : p.Inner (.worker w) events q :=
  (stride_of_pushed? made).inner

theorem inner_of_notified? {p q : Pool κ} {w : Nat} {answer : Answer} {events : List (Event κ)}
    (made : p.notified? w answer = some (q, events)) : p.Inner (.worker w) events q :=
  (stride_of_notified? made).inner

theorem turn_of_step? {p q : Pool κ} {move : Move κ} {events : List (Event κ)}
    (made : p.step? move = some (q, events)) : p.Turn events q := by
  cases move with
  | begin => exact turn_of_begin? made
  | start => exact (inner_of_startReply? made).turn
  | caller => exact (inner_of_callerStep? made).turn
  | worker => exact (inner_of_workerStep? made).turn
  | pushed => exact (inner_of_pushed? made).turn
  | notified => exact (inner_of_notified? made).turn
  | rouse => exact (inner_of_rouse? made).turn

theorem Run.induct {size : PoolSize} {motive : List (Event κ) → Pool κ → Prop}
    (new : motive [] (.new size))
    (turn : ∀ {events : List (Event κ)} {p q : Pool κ} {more : List (Event κ)},
      motive events p → p.Turn more q → motive (events ++ more) q)
    {events : List (Event κ)} {p : Pool κ} (run : Run (.new size) events p) : motive events p := by
  induction run with
  | start => exact new
  | next _ made ih => exact turn ih (turn_of_step? made)

end Pool

end Spool
