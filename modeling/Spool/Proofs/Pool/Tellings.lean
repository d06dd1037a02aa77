import Spool.Proofs.Pool.Counts
import Spool.Proofs.Pool.Errands

/-!
What callbacks are told, counted. A failure that the pool counts is told of with a code that is not
zero, or is hidden, or is about to be told of; as long as a callback is found for every job with
work in it, each such job is told of once before it is released.
-/

namespace Spool

variable {κ : Type}

/-- If the store's call failed, its code says so. -/
def Outcome.Coded : Outcome → Prop
  | .failed error => error.code ≠ 0
  | .stored _ | .gaveUp _ => True

theorem Outcome.coded_iff {outcome : Outcome} :
    outcome.Coded ↔ (outcome.verdict.code = 0 ↔ outcome.verdict.success = true) := by
  cases outcome <;> simp [Coded, verdict]

theorem Outcome.code_of_success {outcome : Outcome} (success : outcome.verdict.success = true) :
    outcome.verdict.code = 0 := by
  cases outcome with
  | stored => rfl
  | failed | gaveUp => cases success

theorem Job.code_of_report {job : Job} {outcome : Outcome} {notice : Notice}
    (told : job.report outcome = some notice) : notice.code = outcome.verdict.code := by
  cases job with
  | transfer | transform => cases told; rfl
  | termination => cases told

/-- Whether the job that is told of failed, by its code. -/
def Event.failure? : Event κ → Option Bool
  | .notified _ _ _ notice => some (notice.code != 0)
  | _ => none

/-- One for a failed job that no code tells of: nobody was there to be told of it, or its code is
that of a success. -/
def Event.hidden : Event κ → Nat
  | .looked _ ticket none => ticket.fails
  | .notified _ ticket _ notice => if notice.code = 0 then ticket.fails else 0
  | _ => 0

/-- One for a job that was told of and is still held. -/
def toldWeight : WorkerPhase → Nat
  | .notifying ticket | .releasing ticket => ticket.works
  | _ => 0

/-- One for a job that is counted among the failures and was not told of. -/
def untoldFailure : WorkerPhase → Nat
  | .dispatching ticket => ticket.fails
  | _ => 0

theorem Ticket.fails_le_works (ticket : Ticket) : ticket.fails ≤ ticket.works := by
  cases stop : ticket.job.isTermination with
  | true => rw [Ticket.fails_of_termination stop]; exact Nat.zero_le _
  | false =>
    simp only [Ticket.works, stop]
    exact Bool.toNat_le _

theorem Ticket.works_of_termination {ticket : Ticket} (stop : ticket.job.isTermination = true) :
    ticket.works = 0 := by
  simp only [Ticket.works, stop]
  rfl

theorem Ticket.works_of_notice {ticket : Ticket} {notice : Notice}
    (told : ticket.job.notice? = some notice) : ticket.works = 1 := by
  simp only [Ticket.works, Job.isTermination_of_notice? told]
  rfl

namespace Pool

variable {p q : Pool κ} {events more : List (Event κ)} {size : PoolSize}

/-- For each job that was told of, whether its code says that it failed. -/
def toldFailures (events : List (Event κ)) : List Bool :=
  events.filterMap Event.failure?

/-- For every job with work in it a callback was found. -/
def Heeded (events : List (Event κ)) : Prop :=
  ∀ w ticket found, .looked w ticket found ∈ events → ticket.job.isTermination = false →
    found ≠ none

/-- Whenever a worker looked in vain for somebody to tell, its job had succeeded. -/
def Heard (events : List (Event κ)) : Prop :=
  ∀ w ticket, .looked w ticket none ∈ events → ticket.job.isSuccessful = true

/-- Every failure of a store has a code that says so. -/
def Coded (events : List (Event κ)) : Prop :=
  ∀ w ticket outcome, .pushed w ticket outcome ∈ events → outcome.Coded

@[simp] theorem toldFailures_nil : toldFailures ([] : List (Event κ)) = [] := rfl

@[simp] theorem toldFailures_cons (event : Event κ) :
    toldFailures (event :: events) = event.failure?.toList ++ toldFailures events :=
  filterMap_cons_toList ..

theorem toldFailures_append :
    toldFailures (events ++ more) = toldFailures events ++ toldFailures more :=
  List.filterMap_append

theorem length_submissions (events : List (Event κ)) :
    (submissions events).length = tally Ticket.works (countedTickets events) := by
  unfold submissions
  induction countedTickets events with
  | nil => rfl
  | cons ticket tickets ih =>
    obtain ⟨serial, job⟩ := ticket
    cases job with
    | transfer | transform =>
      rw [tally_cons, ← ih]
      exact Nat.add_comm _ 1
    | termination => simpa [Ticket.works, Job.isTermination, Job.submission?] using ih

theorem released_step {w : Nat} {worker new : Worker} {phase : WorkerPhase} (fits : phase.Proper)
    (heeded : Heeded more) (turn : WorkerTurn p w worker phase new q more) :
    tally Ticket.works (releasedTickets more) + toldWeight new.phase =
      (toldFailures more).length + toldWeight phase := by
  cases turn with
  | notified _ told =>
    have work := Ticket.works_of_notice told
    simp [toldWeight, Event.failure?, Event.released?, work]
  | @unheard ticket nobody =>
    cases stop : ticket.job.isTermination with
    | true => simp [toldWeight, Event.failure?, Event.released?]
    | false =>
      have found := heeded w ticket p.callback List.mem_cons_self stop
      have silent := Job.notice?_eq_none_iff.mp (nobody.resolve_left found)
      rw [stop] at silent
      cases silent
  | left =>
    have none := Ticket.works_of_termination fits
    simp only [apply_ite toldWeight]
    simp [toldWeight, none]
  | tallied =>
    have none := Ticket.works_of_termination fits
    simp [toldWeight, none]
  | counted =>
    simp only [apply_ite toldWeight]
    simp [toldWeight]
  | _ => simp [toldWeight, Event.failure?, Event.released?]

theorem failure_step {w : Nat} {worker new : Worker} {phase : WorkerPhase}
    (codes : ∀ ticket notice, phase = .dispatching ticket → ticket.job.notice? = some notice →
      ticket.job.isSuccessful = true → notice.code = 0)
    (turn : WorkerTurn p w worker phase new q more) :
    q.failed + untoldFailure phase = p.failed + (toldFailures more).count true +
      tally Event.hidden more + untoldFailure new.phase := by
  cases turn with
  | @tested ticket =>
    cases success : ticket.job.isSuccessful <;>
      simp [untoldFailure, Ticket.fails, success]
  | @notified ticket callback notice found told =>
    have zero := codes ticket notice rfl told
    cases success : ticket.job.isSuccessful with
    | true => simp [untoldFailure, Event.failure?, Event.hidden, found, Ticket.fails, success,
        zero success]
    | false =>
      by_cases same : notice.code = 0
      · simp [untoldFailure, Event.failure?, Event.hidden, found, Ticket.fails, success, same]
      · have nonzero : (notice.code != 0) = true := bne_iff_ne.mpr same
        simp [untoldFailure, Event.failure?, Event.hidden, found, Ticket.fails, success, same,
          nonzero]
  | @unheard ticket nobody =>
    cases found : p.callback with
    | none =>
      simp only [apply_ite untoldFailure]
      simp [untoldFailure, Event.failure?, Event.hidden]
    | some callback =>
      have silent := nobody.resolve_left (found ▸ Option.some_ne_none callback)
      have stop := Job.notice?_eq_none_iff.mp silent
      simp [untoldFailure, Event.failure?, Event.hidden, stop, Ticket.fails_of_termination stop]
  | counted | left =>
    simp only [apply_ite untoldFailure]
    simp [untoldFailure]
  | _ => simp [untoldFailure, Event.failure?, Event.hidden]

theorem Sound.pushed_of_dispatching (sound : Sound events p) {w : Nat} {ticket : Ticket}
    (there : p.phase? w = some (.dispatching ticket)) (work : ticket.job.isTermination = false) :
    ∃ first outcome, .pushed w first outcome ∈ events ∧ first.job.isTermination = false ∧
      ticket = first.finished outcome := by
  obtain ⟨c, first, deeds, _, record, account⟩ :=
    sound.recorded.held w (.dispatching ticket) ticket there rfl
  cases account with
  | dispatching outcome asks =>
    refine ⟨first, outcome, mem_of_about record ?_, asks.work, rfl⟩
    simp [execution]
  | stopDispatching stop => cases work.symm.trans stop

theorem Sound.code_of_dispatching (sound : Sound events p) {w : Nat} {ticket : Ticket}
    {notice : Notice} (there : p.phase? w = some (.dispatching ticket))
    (told : ticket.job.notice? = some notice) (success : ticket.job.isSuccessful = true) :
    notice.code = 0 := by
  obtain ⟨first, outcome, _, work, rfl⟩ :=
    sound.pushed_of_dispatching there (Job.isTermination_of_notice? told)
  rw [Ticket.finished, Job.notice?_finished] at told
  rw [Ticket.finished, Job.isSuccessful_finished work] at success
  rw [Job.code_of_report told, Outcome.code_of_success success]

section Told

variable {w v : Nat} {ticket other : Ticket} {callback : κ} {notice : Notice}
  {deeds : List (Event κ)}

theorem told_of_account {phase : WorkerPhase} (account : Account w ticket phase deeds)
    (member : .notified v other callback notice ∈ deeds) :
    ∃ outcome, .pushed v ticket outcome ∈ deeds ∧ ticket.job.isTermination = false ∧
      other = ticket.finished outcome ∧ ticket.job.report outcome = some notice := by
  cases account with
  | notifying outcome found asks report =>
    simp [execution] at member
    obtain ⟨rfl, rfl, _, rfl⟩ := member
    exact ⟨outcome, by simp [execution], asks.work, rfl, report⟩
  | releasing outcome found answer asks =>
    simp [execution] at member
    obtain ⟨_, _, rfl, report, same | impossible⟩ := mem_told member
    · cases same
      exact ⟨outcome, by simp [execution], asks.work, rfl, report⟩
    · cases impossible
  | _ => simp [execution] at member

theorem told_of_closed (closed : Closed w ticket deeds)
    (member : .notified v other callback notice ∈ deeds) :
    ∃ outcome, .pushed v ticket outcome ∈ deeds ∧ ticket.job.isTermination = false ∧
      other = ticket.finished outcome ∧ ticket.job.report outcome = some notice := by
  cases closed with
  | handled outcome found answer asks =>
    simp [handling, execution] at member
    obtain ⟨_, _, rfl, report, same | impossible⟩ := mem_told member
    · cases same
      exact ⟨outcome, by simp [handling, execution], asks.work, rfl, report⟩
    · cases impossible
  | stopped => simp [stopping] at member

theorem Sound.pushed_of_notified (sound : Sound events p)
    (member : .notified w ticket callback notice ∈ events) :
    ∃ first outcome, .pushed w first outcome ∈ events ∧ first.job.isTermination = false ∧
      ticket = first.finished outcome ∧ first.job.report outcome = some notice := by
  obtain ⟨c, v, first, deeds, _, record, deed, closed | ⟨phase, _, account⟩⟩ :=
    sound.record_of_deed member rfl ⟨rfl, rfl⟩
  · obtain ⟨outcome, pushed, told⟩ := told_of_closed closed deed
    exact ⟨first, outcome, mem_of_about record pushed, told⟩
  · obtain ⟨outcome, pushed, told⟩ := told_of_account account deed
    exact ⟨first, outcome, mem_of_about record pushed, told⟩

end Told

theorem toldFailures_heard (goal : Goal) (c left : Nat) :
    toldFailures (goal.heard (κ := κ) c left) = [] := by
  rcases heard_cases (κ := κ) goal c left with same | same <;> rw [same] <;> rfl

theorem silent_of_callerTurn {c : Nat} {phase : CallPhase κ} {next : Option (CallPhase κ)}
    (turn : CallerTurn p c phase next q more) : toldFailures more = [] := by
  cases turn with
  | abandoned | put | closed => exact toldFailures_heard ..
  | _ => rfl

theorem hidden_heard (goal : Goal) (c left : Nat) :
    tally Event.hidden (goal.heard (κ := κ) c left) = 0 := by
  rcases heard_cases (κ := κ) goal c left with same | same <;> rw [same] <;> rfl

theorem hidden_of_callerTurn {c : Nat} {phase : CallPhase κ} {next : Option (CallPhase κ)}
    (turn : CallerTurn p c phase next q more) : tally Event.hidden more = 0 := by
  cases turn with
  | abandoned | put | closed => simp [Event.hidden, hidden_heard]
  | _ => rfl

/-- Every job with work in it that was released was told of, and those that were told of and are held
are with workers. -/
theorem Run.released_eq (run : Run (.new size) events p) (heeded : Heeded events) :
    tally Ticket.works (releasedTickets events) + p.workerSum toldWeight =
      (toldFailures events).length := by
  induction run with
  | start => rfl
  | @next events p last move more goes made ih =>
    have sofar := ih fun w ticket found member => heeded w ticket found
      (List.mem_append_left _ member)
    rw [releasedTickets_append, toldFailures_append, tally_append, List.length_append]
    cases turn_of_step? made with
    | called | dropped | dozed => exact sofar
    | caller _ turn =>
      have weights := counts_caller (fun worker => toldWeight worker.phase) rfl turn
      have silent : releasedTickets more = [] := by
        cases turn <;> first | exact releasedTickets_heard .. | rfl
      simp only [workerSum] at sofar ⊢
      rw [silent, silent_of_callerTurn turn, weights]
      exact sofar
    | @worker w worker new _ _ there turn =>
      have sums := workerSum_setWorker toldWeight there (frame_of_workerTurn turn).2 new
      have step := released_step (goes.sound.proper.workers w worker there)
        (fun w ticket found member => heeded w ticket found (List.mem_append_right _ member)) turn
      omega

/-- The pool's failures are those that were told of, those that are hidden, and those that are about
to be told of. -/
theorem Run.failures_accounted (run : Run (.new size) events p) :
    p.failed = (toldFailures events).count true + tally Event.hidden events +
      p.workerSum untoldFailure := by
  induction run with
  | start => rfl
  | @next events p last move more goes made ih =>
    rw [toldFailures_append, List.count_append, tally_append]
    cases turn_of_step? made with
    | called | dropped | dozed => exact ih
    | caller _ turn =>
      have weights := counts_caller (fun worker => untoldFailure worker.phase) rfl turn
      simp only [workerSum] at ih ⊢
      rw [goOn_failed, (failed_caller turn).2.1, silent_of_callerTurn turn,
        hidden_of_callerTurn turn, weights]
      exact ih
    | @worker w worker new _ _ there turn =>
      have sums := workerSum_setWorker untoldFailure there (frame_of_workerTurn turn).2 new
      have known := phase?_of_worker? there
      have step := failure_step
        (fun ticket notice same => goes.sound.code_of_dispatching (same ▸ known)) turn
      rw [setWorker_failed]
      omega

theorem Sound.none_hidden (sound : Sound events p) (coded : Coded events) (heard : Heard events) :
    tally Event.hidden events = 0 := by
  refine tally_eq_zero _ fun event member => ?_
  cases event with
  | looked w ticket found =>
    cases found with
    | none => simp [Event.hidden, Ticket.fails, heard w ticket member]
    | some => rfl
  | notified w ticket callback notice =>
    obtain ⟨first, outcome, pushed, work, rfl, told⟩ := sound.pushed_of_notified member
    have tells := Outcome.coded_iff.mp (coded w first outcome pushed)
    rw [← Job.code_of_report told, ← Job.isSuccessful_finished work] at tells
    simp only [Event.hidden]
    split
    · rename_i zero
      simp [Ticket.fails, Ticket.finished, tells.mp zero]
    · rfl
  | _ => rfl

theorem Run.failed_of_heard (run : Run (.new size) events p) (coded : Coded events)
    (heard : Heard events) :
    p.failed = (toldFailures events).count true + p.workerSum untoldFailure := by
  rw [run.failures_accounted, run.sound.none_hidden coded heard, Nat.add_zero]

theorem Heeded.heard (heeded : Heeded events) : Heard events := by
  intro w ticket member
  cases stop : ticket.job.isTermination with
  | true => simpa [Ticket.fails] using Ticket.fails_of_termination stop
  | false => exact absurd rfl (heeded w ticket none member stop)

theorem Run.failed_told (run : Run (.new size) events p) (heeded : Heeded events)
    (coded : Coded events) :
    p.failed = (toldFailures events).count true + p.workerSum untoldFailure :=
  run.failed_of_heard coded heeded.heard

theorem tally_add {α : Type} (f g : α → Nat) (xs : List α) :
    tally (fun a => f a + g a) xs = tally f xs + tally g xs := by
  induction xs with
  | nil => rfl
  | cons a xs ih =>
    simp only [tally_cons, ih]
    omega

theorem told_le_held (p : Pool κ) :
    p.workerSum toldWeight + p.workerSum untoldFailure ≤ p.workerSum (heldWeight Ticket.works) := by
  simp only [workerSum, ← tally_add]
  refine tally_mono _ fun worker _ => ?_
  cases phase : worker.phase with
  | dispatching ticket =>
    have le := ticket.fails_le_works
    simp only [toldWeight, untoldFailure, heldWeight, WorkerPhase.held?, Option.map_some,
      Option.getD_some]
    omega
  | _ => simp [toldWeight, untoldFailure, heldWeight, WorkerPhase.held?]

/-- No job is told of twice, and those that were not told of yet include the failures that were
counted and not told of. -/
theorem Run.told_le (run : Run (.new size) events p) (heeded : Heeded events) :
    (toldFailures events).length + p.workerSum untoldFailure ≤ (submissions events).length := by
  have books := run.sound.accounted.weight Ticket.works fun serial job outcome => by
    simp only [Ticket.works, Job.isTermination_settle]
  have released := run.released_eq heeded
  have held := told_le_held p
  rw [length_submissions]
  unfold weigh at books
  omega

theorem Inner.looked {thread : Thread} (inner : p.Inner thread more q) {w : Nat} {ticket : Ticket}
    {found : Option κ} (member : .looked w ticket found ∈ more) :
    found = p.callback ∧ p.phase? w = some (.dispatching ticket) := by
  cases inner with
  | caller _ turn => cases turn <;> simp [not_heard] at member
  | @worker v worker _ _ _ there turn =>
    generalize phase : worker.phase = before at turn
    cases turn with
    | notified | unheard =>
      simp only [List.mem_cons, List.not_mem_nil, or_false, Event.looked.injEq, reduceCtorEq]
        at member
      obtain ⟨rfl, rfl, rfl⟩ := member
      exact ⟨rfl, phase ▸ phase?_of_worker? there⟩
    | _ => simp at member
  | dozed => cases member

theorem Inner.callback_kept {thread : Thread} (inner : p.Inner thread more q)
    (kept : ∀ c phase, p.call? c = some phase → phase.errand ≠ .clear)
    (there : p.callback ≠ none) : q.callback ≠ none := by
  cases inner with
  | caller found turn =>
    rw [goOn_callback]
    cases turn with
    | registered => exact Option.some_ne_none _
    | cleared => exact absurd rfl (kept _ _ found)
    | _ => exact there
  | @worker _ worker _ _ _ _ turn =>
    rw [setWorker_callback]
    generalize worker.phase = phase at turn
    cases turn <;> exact there
  | dozed => exact there

theorem Inner.registered {thread : Thread} (inner : p.Inner thread more q) {c : Nat}
    (sole : p.Sole c) {phase : CallPhase κ} (there : p.call? c = some phase)
    (registers : phase.errand = .register) (gone : q.call? c = none) : q.callback ≠ none := by
  cases inner with
  | @caller d other next r _ found turn =>
    cases sole d _ found
    cases there.symm.trans found
    rw [goOn_callback]
    cases phase with
    | registering callback =>
      cases turn with
      | taken taken => exact Option.isSome_iff_ne_none.mp taken
      | registered => exact Option.some_ne_none _
    | counting _ _ goal | putting _ goal | closing goal | joining _ goal =>
      cases goal <;> cases registers
    | _ => cases registers
  | worker _ turn =>
    rcases call?_worker turn c with same | woken
    · cases (same.symm.trans gone).symm.trans there
    · rw [woken, there] at gone
      cases gone
  | dozed => cases there.symm.trans gone

theorem callback_of_called {c : Nat} {call : Call κ} (turn : p.Turn [.called c call] q) :
    q.callback = p.callback := by
  generalize heard : [Event.called c call] = more at turn
  cases turn with
  | called | dropped | dozed => rfl
  | caller _ made => cases made <;> cases heard
  | @worker _ worker _ _ _ _ made =>
    generalize worker.phase = phase at made
    cases made <;> cases heard

theorem Sound.submitted_of_held (sound : Sound events p) {w : Nat} {phase : WorkerPhase}
    {ticket : Ticket} (there : p.phase? w = some phase) (holds : phase.held? = some ticket)
    (work : ticket.job.isTermination = false) : submissions events ≠ [] := by
  have books := sound.accounted.weight Ticket.works fun serial job outcome => by
    simp only [Ticket.works, Job.isTermination_settle]
  have held : heldWeight Ticket.works phase ≤ p.workerSum (heldWeight Ticket.works) :=
    le_workerSum there
  have one : heldWeight Ticket.works phase = 1 := by
    simp only [heldWeight, holds, Option.map_some, Option.getD_some, Ticket.works, work]
    rfl
  intro none
  have length := length_submissions events
  rw [none] at length
  unfold weigh at books
  simp only [List.length_nil] at length
  omega

end Pool

end Spool
