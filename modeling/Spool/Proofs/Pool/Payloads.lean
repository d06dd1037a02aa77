import Spool.Proofs.Pool.Counts
import Spool.Proofs.Pool.Script

/-!
What workers make of the jobs that they take. A worker goes through its jobs one by one. When a
store's answers depend on the jobs alone, what the worker has told of them, and what it has handed
to the pool, is what the jobs ask for that it took, up to the one that it holds.
-/

namespace Spool

variable {κ : Type}

/-- What the callback is told of a job when stores answer as given. -/
def Job.payload? (callback : κ) (out : Job → Outcome) (job : Job) : Option (κ × Notice) :=
  (job.report (out job)).map fun notice => (callback, notice)

namespace Event

/-- The worker that the event is heard of, if it is one of a worker's own. -/
def worker? : Event κ → Option Nat
  | .removed w _ | .began w _ _ | .pushed w _ _ | .handed w _ | .looked w _ _ | .notified w _ _ _
  | .answered w _ _ | .released w _ | .tornDown w | .exited w => some w
  | _ => none

def received? : Event κ → Option Job
  | .began _ _ ticket => some ticket.job
  | _ => none

def payload? : Event κ → Option (Nat × (κ × Notice))
  | .notified w _ callback notice => some (w, (callback, notice))
  | _ => none

/-- If it is the end of a store's call, the answer is the one given. -/
def answersAs (out : Job → Outcome) : Event κ → Bool
  | .pushed _ ticket outcome => outcome = out ticket.job
  | _ => true

def clears : Event κ → Bool
  | .cleared _ => true
  | _ => false

def taken? : Event κ → Option (Nat × Ticket)
  | .removed w ticket => some (w, ticket)
  | _ => none

end Event

namespace WorkerPhase

/-- What is still to be told of the job that the worker holds. -/
def untold? (out : Job → Outcome) : WorkerPhase → Option Notice
  | .pushing ticket => ticket.job.report (out ticket.job)
  | .counting ticket _ | .countingFailure ticket | .handing ticket | .testing ticket
  | .dispatching ticket => ticket.job.notice?
  | _ => none

end WorkerPhase

/-- A quantity of the job that the worker is yet to hand to the pool. -/
def unhandedWeight (out : Job → Outcome) (f : Ticket → Nat) : WorkerPhase → Nat
  | .pushing ticket => f (ticket.finished (out ticket.job))
  | .counting ticket _ | .countingFailure ticket | .handing ticket => f ticket
  | _ => 0

namespace Pool

variable {p q : Pool κ} {events more : List (Event κ)} {size : PoolSize} {callback : κ}
  {out : Job → Outcome}

/-- The jobs that stores were called with. -/
def received (events : List (Event κ)) : List Job :=
  events.filterMap Event.received?

/-- What callbacks were told, by which worker. -/
def notices (events : List (Event κ)) : List (Nat × (κ × Notice)) :=
  events.filterMap Event.payload?

def payloads (events : List (Event κ)) : List (κ × Notice) :=
  (notices events).map Prod.snd

/-- Jobs with the workers that took them, in the order in which they were taken. -/
def takings (events : List (Event κ)) : List (Nat × Ticket) :=
  events.filterMap Event.taken?

/-- Stores answer as given. -/
def Answered (out : Job → Outcome) (events : List (Event κ)) : Prop :=
  ∀ w ticket outcome, .pushed w ticket outcome ∈ events → outcome = out ticket.job

instance : Decidable (Answered out events) :=
  decidable_of_iff (events.all (Event.answersAs out) = true) <| by
    constructor
    · intro all w ticket outcome member
      exact of_decide_eq_true (List.all_eq_true.mp all _ member)
    · intro answers
      refine List.all_eq_true.mpr fun event member => ?_
      cases event with
      | pushed w ticket outcome => exact decide_eq_true (answers w ticket outcome member)
      | _ => rfl

theorem Answered.left (answers : Answered out (events ++ more)) : Answered out events :=
  fun w ticket outcome member => answers w ticket outcome (List.mem_append_left _ member)

theorem Answered.right (answers : Answered out (events ++ more)) : Answered out more :=
  fun w ticket outcome member => answers w ticket outcome (List.mem_append_right _ member)

/-- The callback is in place when a submission begins, and is not taken out afterwards. -/
def Attended (callback : κ) (events : List (Event κ)) : Prop :=
  ∀ before d submission after, events = before ++ .called d (.submit submission) :: after →
    registration before = some callback ∧ ∀ e, .cleared e ∉ after

section Attendance

theorem Attended.of_append (attended : Attended callback (events ++ more)) :
    Attended callback events := by
  rintro before d submission after rfl
  obtain ⟨there, kept⟩ := attended before d submission (after ++ more) (by simp)
  exact ⟨there, fun e member => kept e (List.mem_append_left _ member)⟩

theorem attended_iff : Attended callback events ↔
    ∀ i, (below : i < events.length) → begins Call.submits events[i] = true →
      registration (events.take i) = some callback ∧
        (events.drop (i + 1)).any Event.clears = false := by
  constructor
  · intro attended i below submits
    have cut : events = events.take i ++ events[i] :: events.drop (i + 1) := by
      rw [List.getElem_cons_drop below, List.take_append_drop]
    generalize event : events[i] = here at cut submits
    cases here with
    | called d call =>
      cases call with
      | submit submission =>
        obtain ⟨there, kept⟩ := attended _ d submission _ cut
        refine ⟨there, List.any_eq_false.mpr fun event member clears => ?_⟩
        cases event <;> first | exact kept _ member | cases clears
      | _ => cases submits
    | _ => cases submits
  · rintro first before d submission after rfl
    have here := first before.length (by simp)
    simp only [List.getElem_append_right (Nat.le_refl _), Nat.sub_self, List.getElem_cons_zero,
      List.take_left, begins, Call.submits, forall_const] at here
    refine ⟨here.1, fun e member => ?_⟩
    refine List.any_eq_false.mp here.2 (.cleared e) ?_ rfl
    simpa [← List.drop_drop] using member

instance [DecidableEq κ] : Decidable (Attended callback events) :=
  decidable_of_iff _ attended_iff.symm

theorem callback_kept (there : p.callback = some callback) (none : ∀ e, .cleared e ∉ more)
    (turn : p.Turn more q) : q.callback = some callback := by
  cases turn with
  | called | dropped | dozed => exact there
  | caller _ made =>
    rw [goOn_callback]
    cases made with
    | registered free => rw [free] at there; cases there
    | cleared => exact absurd List.mem_cons_self (none _)
    | _ => exact there
  | @worker _ worker _ _ _ _ made =>
    rw [setWorker_callback]
    generalize worker.phase = phase at made
    cases made <;> exact there

theorem Run.attended (run : Run (.new size) events p) (attended : Attended callback events)
    (some : ∃ d submission, .called d (.submit submission) ∈ events) :
    p.callback = .some callback := by
  induction run with
  | start =>
    obtain ⟨_, _, member⟩ := some
    cases member
  | @next events mid last move more goes made ih =>
    obtain ⟨d, submission, member⟩ := some
    have turn := turn_of_step? made
    rcases List.mem_append.mp member with old | new
    · refine callback_kept (ih attended.of_append ⟨d, submission, old⟩) (fun e cleared => ?_) turn
      obtain ⟨before, after, rfl⟩ := List.append_of_mem old
      obtain ⟨_, kept⟩ := attended before d submission (after ++ more) (by simp)
      exact kept e (List.mem_append_right _ cleared)
    · obtain ⟨first, rest, rfl⟩ := List.append_of_mem new
      obtain ⟨rfl, rfl⟩ := called_of_turn turn rfl
      have there := (attended events d submission [] rfl).1
      rw [goes.registration_eq] at there
      exact callback_kept there (by simp) turn

end Attendance

section Heard

theorem worker?_of_callerTurn {c : Nat} {phase : CallPhase κ} {next : Option (CallPhase κ)}
    (turn : CallerTurn p c phase next q more) : ∀ event ∈ more, event.worker? = none := by
  have quiet : ∀ (goal : Goal) (left : Nat), ∀ event ∈ goal.heard (κ := κ) c left,
      event.worker? = none := by
    intro goal left event member
    rcases heard_cases (κ := κ) goal c left with same | same <;> rw [same] at member
    · cases member
    · rw [List.mem_singleton.mp member]
      rfl
  intro event member
  cases turn with
  | abandoned | put | closed =>
    rcases List.mem_cons.mp member with rfl | heard
    · rfl
    · exact quiet _ _ event heard
  | _ => simp at member <;> (rcases member with rfl | rfl) <;> rfl

theorem worker?_of_workerTurn {w : Nat} {worker new : Worker} {phase : WorkerPhase}
    (turn : WorkerTurn p w worker phase new q more) : ∀ event ∈ more, event.worker? = some w := by
  intro event member
  cases turn <;> simp at member <;> (rcases member with rfl | rfl) <;> rfl

end Heard

section Keyed

variable {α : Type}

/-- The values under a key. -/
def under (w : Nat) (entries : List (Nat × α)) : List α :=
  (entries.filter (·.1 = w)).map Prod.snd

theorem under_append (w : Nat) (entries rest : List (Nat × α)) :
    under w (entries ++ rest) = under w entries ++ under w rest := by
  simp only [under, List.filter_append, List.map_append]

theorem under_of_forall {v : Nat} {entries : List (Nat × α)} (same : ∀ entry ∈ entries, entry.1 = v)
    (w : Nat) : under w entries = if w = v then entries.map Prod.snd else [] := by
  split
  · next here =>
    rw [under, List.filter_eq_self.mpr fun entry member =>
      decide_eq_true ((same entry member).trans here.symm)]
  · next other =>
    rw [under, List.filter_eq_nil_iff.mpr fun entry member => ?_, List.map_nil]
    rw [same entry member, decide_eq_true_eq]
    exact Ne.symm other

theorem map_perm_under {n : Nat} {entries : List (Nat × α)}
    (less : ∀ entry ∈ entries, entry.1 < n) :
    (entries.map Prod.snd).Perm ((List.range n).flatMap fun w => under w entries) := by
  induction n generalizing entries with
  | zero =>
    cases entries with
    | nil => exact .nil
    | cons entry _ => cases less entry List.mem_cons_self
  | succ n ih =>
    rw [List.range_succ, List.flatMap_append, List.flatMap_singleton]
    have split := List.filter_append_perm (fun entry : Nat × α => decide (entry.1 < n)) entries
    refine (split.symm.map Prod.snd).trans ?_
    rw [List.map_append]
    refine .append ((ih fun entry member => ?_).trans (.of_eq ?_)) (.of_eq ?_)
    · exact of_decide_eq_true (List.mem_filter.mp member).2
    · rw [List.flatMap_def, List.flatMap_def]
      refine congrArg List.flatten (List.map_congr_left fun w inside => ?_)
      rw [under, under, List.filter_filter]
      refine congrArg (List.map Prod.snd) (List.filter_congr fun entry _ => ?_)
      by_cases here : entry.1 = w
      · simp [here, List.mem_range.mp inside]
      · simp [here]
    · rw [under]
      refine congrArg (List.map Prod.snd) (List.filter_congr fun entry member => ?_)
      have bound := less entry member
      rw [← decide_not]
      exact decide_eq_decide.mpr (by omega)

end Keyed

section Takings

theorem takings_append : takings (events ++ more) = takings events ++ takings more :=
  List.filterMap_append

theorem notices_append : notices (events ++ more) = notices events ++ notices more :=
  List.filterMap_append

theorem removedTickets_eq (events : List (Event κ)) :
    removedTickets events = (takings events).map Prod.snd := by
  rw [takings, List.map_filterMap]
  refine congrArg (fun taken => events.filterMap taken) (funext fun event => ?_)
  cases event <;> rfl

theorem mem_of_takings {entry : Nat × Ticket} (member : entry ∈ takings events) :
    ∃ event ∈ events, event.worker? = some entry.1 := by
  obtain ⟨event, known, same⟩ := List.mem_filterMap.mp member
  refine ⟨event, known, ?_⟩
  cases event <;> cases same
  rfl

theorem mem_of_notices {entry : Nat × (κ × Notice)} (member : entry ∈ notices events) :
    ∃ event ∈ events, event.worker? = some entry.1 := by
  obtain ⟨event, known, same⟩ := List.mem_filterMap.mp member
  refine ⟨event, known, ?_⟩
  cases event <;> cases same
  rfl

theorem silent_of_worker? (silent : ∀ event ∈ more, event.worker? = none) :
    takings more = [] ∧ notices more = [] ∧ received more = [] := by
  refine ⟨?_, ?_, ?_⟩
  all_goals
    refine List.filterMap_eq_nil_iff.mpr fun event member => ?_
    have this := silent event member
    cases event <;> first | rfl | cases this

end Takings

section Received

theorem Run.received_eq (run : Run (.new size) events p) :
    received events = works (removedTickets events) := by
  induction run with
  | start => rfl
  | next _ made ih =>
    rw [received, List.filterMap_append, removedTickets_append, works_append, ← ih]
    refine congrArg (received _ ++ ·) ?_
    cases turn_of_step? made with
    | called | dropped | dozed => rfl
    | caller _ turn =>
      obtain ⟨taken, _, silent⟩ := silent_of_worker? (worker?_of_callerTurn turn)
      refine silent.trans ?_
      rw [removedTickets_eq, taken]
      rfl
    | @worker _ worker _ _ _ _ turn =>
      generalize worker.phase = phase at turn
      cases turn with
      | stopped _ none =>
        have stop := Job.push?_eq_none_iff.mp none
        simp [Event.received?, Event.removed?, works, stop]
      | fetched _ some =>
        have work := Job.isTermination_of_push? some
        simp [Event.removed?, works, work]
        rfl
      | _ => rfl

end Received

section Told

theorem submit_of_sequential {move : Bool} {script : List Instruction} {job : Job}
    (member : job ∈ sequential move script) : ∃ submission, .submit submission ∈ script := by
  induction script generalizing move with
  | nil => cases member
  | cons instruction script ih =>
    cases instruction with
    | submit submission => exact ⟨submission, List.mem_cons_self⟩
    | switch on =>
      obtain ⟨submission, later⟩ := ih (show job ∈ sequential on script from member)
      exact ⟨submission, List.mem_cons_of_mem _ later⟩

theorem Run.callback_of_held {c w : Nat} {phase : WorkerPhase} {ticket : Ticket}
    (run : Run (.new size) events p) (follows : Follows c events p)
    (attended : Attended callback events) (there : p.phase? w = some phase)
    (holds : phase.held? = some ticket) (work : phase.isStopped = false) :
    p.callback = some callback := by
  -- the job was put into the queue, so a submission had begun
  obtain ⟨d, first, deeds, _, record, account⟩ := run.sound.recorded.held w phase ticket there holds
  rw [isStopped_of_account account] at work
  have put : .appended d first ∈ events := by
    refine (List.mem_filter.mp (?_ : _ ∈ about ticket.serial events)).1
    rw [record]
    exact List.mem_cons_of_mem _ List.mem_cons_self
  have listed : first.job ∈ works (appendedTickets events) :=
    List.mem_map.mpr ⟨first, List.mem_filter.mpr
      ⟨List.mem_filterMap.mpr ⟨_, put, rfl⟩, by simp [work]⟩, rfl⟩
  have made : first.job ∈ sequential false (script events) :=
    follows.jobs ▸ List.mem_append_left _ listed
  obtain ⟨submission, given⟩ := submit_of_sequential made
  obtain ⟨⟨e, _⟩, known, rfl⟩ := List.mem_map.mp given
  obtain ⟨event, member, same⟩ := List.mem_filterMap.mp known
  refine run.attended attended ⟨e, submission, ?_⟩
  cases event with
  | called d call =>
    cases call with
    | submit => cases same; exact member
    | setMoveMode => cases same
    | _ => cases same
  | _ => cases same

/-- What a worker's turn tells, and leaves untold, is what was untold and what the jobs ask for that
it takes. -/
theorem told_worker {w : Nat} {worker new : Worker} {phase : WorkerPhase} (fits : phase.Proper)
    (heard : ∀ ticket, phase = .dispatching ticket → ticket.job.isTermination = false →
      p.callback = some callback)
    (answers : Answered out more) (turn : WorkerTurn p w worker phase new q more) :
    payloads more ++ (new.phase.untold? out).toList.map (callback, ·) =
      (phase.untold? out).toList.map (callback, ·) ++
        (works (removedTickets more)).filterMap (Job.payload? callback out) := by
  cases turn with
  | stopped _ none =>
    have stop := Job.push?_eq_none_iff.mp none
    simp [payloads, notices, Event.payload?, WorkerPhase.untold?, Event.removed?, works, stop,
      Job.notice?_eq_none_iff.mpr stop]
  | @fetched ticket _ kind _ some =>
    have work := Job.isTermination_of_push? some
    have taken : works (removedTickets [Event.removed w ticket, .began (κ := κ) w kind ticket]) =
        [ticket.job] := by
      simp [Event.removed?, works, work]
    rw [taken, filterMap_cons_toList, Job.payload?]
    cases told : ticket.job.report (out ticket.job) <;>
      simp [payloads, notices, Event.payload?, WorkerPhase.untold?, told]
  | @pushed ticket outcome =>
    obtain ⟨fresh, work⟩ := fits
    obtain rfl : outcome = out ticket.job := answers w ticket outcome List.mem_cons_self
    simp only [Job.settle_of_isFresh fresh work, WorkerPhase.untold?, Job.notice?_finished]
    exact (List.append_nil _).symm
  | @counted ticket success => cases success <;> exact (List.append_nil _).symm
  | countedFailure | handed | tested => exact (List.append_nil _).symm
  | @notified ticket found notice there told =>
    have same := heard ticket rfl (Job.isTermination_of_notice? told)
    rw [there] at same
    cases same
    simp only [WorkerPhase.untold?, told]
    rfl
  | @unheard ticket nobody =>
    -- with the callback in place, only of a termination nobody is told
    have stop : ticket.job.isTermination = true := by
      cases work : ticket.job.isTermination with
      | true => rfl
      | false =>
        rw [heard ticket rfl work] at nobody
        have none := nobody.resolve_left fun impossible => by cases impossible
        exact work.symm.trans (Job.notice?_eq_none_iff.mp none)
    have none := Job.notice?_eq_none_iff.mpr stop
    simp [payloads, notices, Event.payload?, WorkerPhase.untold?, stop, none, works, Event.removed?]
  | left =>
    simp only [apply_ite (WorkerPhase.untold? out)]
    simp [payloads, notices, WorkerPhase.untold?, works]
  | _ => rfl

def untold (callback : κ) (out : Job → Outcome) (p : Pool κ) (w : Nat) : List (κ × Notice) :=
  ((p.phase? w).bind (WorkerPhase.untold? out)).toList.map (callback, ·)

theorem untold_caller {c : Nat} {phase : CallPhase κ} {next : Option (CallPhase κ)}
    (turn : CallerTurn p c phase next q more) (w : Nat) :
    untold callback out (q.goOn c next) w = untold callback out p w := by
  simp only [untold, phase?, worker?, goOn_workers]
  rcases workers_of_callerTurn turn with same | ⟨_, started⟩
  · rw [same]
  · rw [started, phase?_started]
    split
    · next new => simp [new, WorkerPhase.untold?]
    · rfl

theorem told_turn (proper : p.Proper) (heard : ∀ w phase ticket, p.phase? w = some phase →
      phase.held? = some ticket → phase.isStopped = false → p.callback = some callback)
    (answers : Answered out more) (turn : p.Turn more q) (w : Nat) :
    under w (notices more) ++ untold callback out q w =
      untold callback out p w ++
        (works (under w (takings more))).filterMap (Job.payload? callback out) := by
  cases turn with
  | called | dropped | dozed => exact (List.append_nil _).symm
  | caller _ made =>
    obtain ⟨taken, told, _⟩ := silent_of_worker? (worker?_of_callerTurn made)
    rw [taken, told, untold_caller made]
    exact (List.append_nil _).symm
  | @worker v worker new _ _ there made =>
    have known := phase?_of_worker? there
    have moved := phase?_worker there made w
    have step := told_worker (proper.workers v worker there) (fun ticket same work =>
      heard v _ ticket known (by rw [same]; rfl) (by rw [same]; exact work)) answers made
    have own : ∀ {u : Nat}, (∃ event ∈ more, event.worker? = some u) → u = v := by
      rintro u ⟨event, member, heard⟩
      exact Option.some.inj (heard.symm.trans (worker?_of_workerTurn made event member))
    rw [under_of_forall fun entry member => own (mem_of_notices member),
      under_of_forall fun entry member => own (mem_of_takings member)]
    split
    · next here =>
      subst here
      rw [if_pos rfl] at moved
      rw [removedTickets_eq] at step
      rw [untold, untold, known, moved]
      exact step
    · next other =>
      rw [if_neg other] at moved
      rw [untold, untold, moved]
      exact (List.append_nil _).symm

/-- One thread makes all submissions, before the transaction is ended; the callback is there to be
told of them, and stores answer as given. -/
structure Guided (callback : κ) (c : Nat) (out : Job → Outcome) (events : List (Event κ)) :
    Prop where
  orderly : SubmissionsFirst events
  mine : ∀ entry ∈ instructions events, entry.1 = c
  attended : Attended callback events
  answers : Answered out events

theorem Guided.left {c : Nat} (guided : Guided callback c out (events ++ more)) :
    Guided callback c out events where
  orderly := guided.orderly.of_append
  mine entry member :=
    guided.mine entry (by rw [instructions_append]; exact List.mem_append_left _ member)
  attended := guided.attended.of_append
  answers := guided.answers.left

theorem Run.told_under {c : Nat} (run : Run (.new size) events p)
    (guided : Guided callback c out events) (w : Nat) :
    under w (notices events) ++ untold callback out p w =
      (works (under w (takings events))).filterMap (Job.payload? callback out) := by
  induction run with
  | start => rfl
  | @next events p last move more goes made ih =>
    have early := guided.left
    have follows := goes.follows early.orderly early.mine
    have step := told_turn goes.sound.proper
      (fun _ _ _ => goes.callback_of_held follows early.attended) guided.answers.right
      (turn_of_step? made) w
    rw [notices_append, takings_append, under_append, under_append, works_append,
      List.filterMap_append, ← ih early, List.append_assoc, List.append_assoc, step]

end Told

section Handed

/-- What a worker hands over in a turn is what it had, and what it takes, with the result that the
store gives. -/
theorem handed_worker {w : Nat} {worker new : Worker} {phase : WorkerPhase} (g : Ticket → Nat)
    (fits : phase.Proper) (answers : Answered out more)
    (turn : WorkerTurn p w worker phase new q more) :
    tally g (handedTickets more) + unhandedWeight out g new.phase =
      unhandedWeight out g phase +
        tally (fun ticket => g (ticket.finished (out ticket.job))) (removedTickets more) := by
  cases turn with
  | @stopped ticket _ _ none =>
    have same : ticket.finished (out ticket.job) = ticket := by
      obtain ⟨serial, job⟩ := ticket
      cases job <;> first | rfl | cases none
    simp [unhandedWeight, Event.handed?, Event.removed?, same]
  | fetched => simp [unhandedWeight, Event.handed?, Event.removed?]
  | @pushed ticket outcome =>
    obtain ⟨fresh, work⟩ := fits
    obtain rfl : outcome = out ticket.job := answers w ticket outcome List.mem_cons_self
    simp [unhandedWeight, Event.handed?, Event.removed?, Job.settle_of_isFresh fresh work,
      Ticket.finished]
  | @counted ticket success => cases success <;> exact Nat.add_comm ..
  | handed => simp [unhandedWeight, Event.handed?, Event.removed?]
  | unheard | left =>
    simp only [apply_ite (unhandedWeight out g)]
    simp [unhandedWeight, Event.handed?, Event.removed?]
  | _ => simp [unhandedWeight, Event.handed?, Event.removed?]

/-- The jobs that were handed to the pool are those that were taken, with the results that the
stores gave, up to those that the workers hold. -/
theorem Run.handed_tally (g : Ticket → Nat) (run : Run (.new size) events p)
    (answers : Answered out events) :
    tally g (handedTickets events) + p.workerSum (unhandedWeight out g) =
      tally (fun ticket => g (ticket.finished (out ticket.job))) (removedTickets events) := by
  induction run with
  | start => rfl
  | @next events p last move more goes made ih =>
    have sofar := ih answers.left
    rw [handedTickets_append, removedTickets_append, tally_append, tally_append]
    cases turn_of_step? made with
    | called | dropped | dozed => exact sofar
    | caller _ turn =>
      obtain ⟨taken, _⟩ := silent_of_worker? (worker?_of_callerTurn turn)
      have weights := counts_caller (fun worker => unhandedWeight out g worker.phase) rfl turn
      simp only [workerSum] at sofar ⊢
      rw [(failed_caller turn).1, removedTickets_eq more, taken, weights]
      exact sofar
    | @worker w worker new _ _ there turn =>
      have sums := workerSum_setWorker (unhandedWeight out g) there (frame_of_workerTurn turn).2 new
      have step := handed_worker g (goes.sound.proper.workers w worker there)
        answers.right turn
      omega

end Handed

end Pool

end Spool
