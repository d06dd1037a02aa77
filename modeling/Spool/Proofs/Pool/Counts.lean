import Spool.Proofs.Pool.Barrier

/-!
The counts that a pool keeps of its jobs. A failure is counted twice: by the worker, from what the
execution told it, and by the pool, from the result in the job. Both agree at every moment, up to
the jobs on the way from the one count to the other.
-/

namespace Spool

variable {κ : Type}

namespace Outcome

def isFailure : Outcome → Bool
  | stored _ => false
  | failed _ | gaveUp _ => true

theorem success_verdict (outcome : Outcome) : outcome.verdict.success = !outcome.isFailure := by
  cases outcome <;> rfl

end Outcome

/-- A store's call for the job with this number failed. -/
def Event.failsPush (serial : Nat) : Event κ → Bool
  | .pushed _ ticket outcome => decide (ticket.serial = serial) && outcome.isFailure
  | _ => false

namespace WorkerPhase

/-- The job that is about to be tested for a failure. -/
def testing? : WorkerPhase → Option Ticket
  | .testing ticket => some ticket
  | _ => none

/-- The worker has counted a job as executed and has not handed it to the pool. -/
def isRecorded : WorkerPhase → Bool
  | .countingFailure _ => true
  | .handing ticket => !ticket.job.isTermination
  | _ => false

/-- The worker has recorded a result and the pool has not tested it. -/
def isBetween : WorkerPhase → Bool
  | .handing ticket | .testing ticket => !ticket.job.isTermination
  | _ => false

/-- What the execution told the worker is what the result in the job says. -/
def Judged : WorkerPhase → Prop
  | .counting ticket success => ticket.job.isSuccessful = success
  | .countingFailure ticket => ticket.job.isSuccessful = false
  | _ => True

end WorkerPhase

def recordedWeight (phase : WorkerPhase) : Nat := phase.isRecorded.toNat

/-- One for a failure that the worker has counted and the pool has not. -/
def betweenWeight : WorkerPhase → Nat
  | .handing ticket | .testing ticket => ticket.fails
  | _ => 0

def Ticket.works (ticket : Ticket) : Nat := (!ticket.job.isTermination).toNat

theorem Ticket.fails_of_termination {ticket : Ticket} (stop : ticket.job.isTermination = true) :
    ticket.fails = 0 := by
  obtain ⟨serial, job⟩ := ticket
  cases job <;> first | rfl | cases stop

namespace Pool

variable {p q : Pool κ} {events more deeds : List (Event κ)} {size : PoolSize}

/-- The failures that the workers counted among their own. -/
def ownFailures (p : Pool κ) : Nat :=
  p.workers.foldr (fun worker n => worker.failed + n) 0

def isTesting (p : Pool κ) (ticket : Ticket) : Bool :=
  p.workers.any fun worker => worker.phase = .testing ticket

/-- The jobs that the pool has tested for a failure. -/
def testedTickets (events : List (Event κ)) (p : Pool κ) : List Ticket :=
  (handedTickets events).filter fun ticket => !p.isTesting ticket

def pushFailed (events : List (Event κ)) (serial : Nat) : Bool :=
  events.any (Event.failsPush serial)

section Judgement

theorem judged_worker (proper : p.Proper) {w : Nat} {worker new : Worker}
    (there : p.worker? w = some worker) (judged : worker.phase.Judged)
    (turn : WorkerTurn p w worker worker.phase new q more) : new.phase.Judged := by
  have fits := proper.workers w worker there
  generalize worker.phase = phase at turn judged fits
  cases turn with
  | @pushed ticket outcome =>
    obtain ⟨fresh, work⟩ := fits
    have settled := Job.settle_of_isFresh fresh work outcome
    simp only [WorkerPhase.Judged, settled]
    exact Job.isSuccessful_finished work outcome
  | @counted ticket success =>
    cases success with
    | true => trivial
    | false => exact judged
  | unheard | left =>
    dsimp only
    split <;> trivial
  | _ => trivial

theorem Run.judged (run : Run (.new size) events p) :
    ∀ w worker, p.worker? w = some worker → worker.phase.Judged := by
  refine run.induct_sound (motive := fun _ p =>
    ∀ w worker, p.worker? w = some worker → worker.phase.Judged) (fun w worker there => ?_) ?_
  · cases there
  · intro events p q more sound before turn v worker there
    cases turn with
    | called | dropped | dozed => exact before v worker there
    | caller _ made =>
      rcases workers_of_callerTurn made with same | ⟨_, started⟩
      · simp only [worker?, goOn_workers, same] at there
        exact before v worker there
      · simp only [worker?, goOn_workers, started] at there
        rcases List.mem_append.mp (List.mem_of_getElem? there) with old | new
        · obtain ⟨u, known⟩ := List.getElem?_of_mem old
          exact before u worker known
        · cases List.mem_singleton.mp new
          trivial
    | worker known made =>
      rw [worker?_worker known made] at there
      split at there
      · cases there
        exact judged_worker sound.proper known (before _ _ known) made
      · exact before v worker there

end Judgement

section Totals

theorem executed_step {w : Nat} {worker new : Worker} {phase : WorkerPhase} (fits : phase.Proper)
    (turn : WorkerTurn p w worker phase new q more) :
    new.executed + recordedWeight phase =
      worker.executed + recordedWeight new.phase + tally Ticket.works (handedTickets more) := by
  cases turn with
  | stopped _ none =>
    have stop := Job.push?_eq_none_iff.mp none
    simp [recordedWeight, WorkerPhase.isRecorded, stop, Event.handed?]
  | @counted ticket success =>
    have work : ticket.job.isTermination = false := fits
    cases success <;> simp [recordedWeight, WorkerPhase.isRecorded, work]
  | @countedFailure ticket =>
    have work : ticket.job.isTermination = false := fits
    simp [recordedWeight, WorkerPhase.isRecorded, work]
  | @handed ticket => simp [recordedWeight, WorkerPhase.isRecorded, Ticket.works, Event.handed?]
  | unheard | left =>
    simp only [apply_ite recordedWeight]
    simp [recordedWeight, WorkerPhase.isRecorded, Event.handed?]
  | _ => simp [recordedWeight, WorkerPhase.isRecorded, Event.handed?]

theorem failed_step {w : Nat} {worker new : Worker} {phase : WorkerPhase} (judged : phase.Judged)
    (turn : WorkerTurn p w worker phase new q more) :
    new.failed + p.failed + betweenWeight phase =
      worker.failed + q.failed + betweenWeight new.phase := by
  cases turn with
  | stopped _ none =>
    have stop := Job.push?_eq_none_iff.mp none
    simp [betweenWeight, Ticket.fails_of_termination stop]
  | @counted ticket success =>
    have same : ticket.job.isSuccessful = success := judged
    cases success <;> simp [betweenWeight, Ticket.fails, same]
  | @countedFailure ticket =>
    have failure : ticket.job.isSuccessful = false := judged
    simp [betweenWeight, Ticket.fails, failure]
    omega
  | @tested ticket =>
    cases success : ticket.job.isSuccessful <;> simp [betweenWeight, Ticket.fails, success]
    omega
  | unheard | left =>
    simp only [apply_ite betweenWeight]
    simp [betweenWeight]
  | _ => simp [betweenWeight]

theorem counts_caller {c : Nat} {phase : CallPhase κ} {next : Option (CallPhase κ)}
    (f : Worker → Nat) (fresh : f {} = 0) (turn : CallerTurn p c phase next q more) :
    tally f (q.goOn c next).workers = tally f p.workers := by
  rcases workers_of_callerTurn turn with same | ⟨_, started⟩
  · rw [goOn_workers, same]
  · rw [goOn_workers, started, tally_append, tally_cons, fresh]
    rfl

theorem Run.executed_eq (run : Run (.new size) events p) :
    p.executed = tally Ticket.works (handedTickets events) + p.workerSum recordedWeight := by
  refine run.induct_sound (motive := fun events p => tally Worker.executed p.workers =
    tally Ticket.works (handedTickets events) + p.workerSum recordedWeight) rfl ?_
  intro events p q more sound before turn
  rw [handedTickets_append, tally_append]
  cases turn with
  | called | dropped | dozed => exact before
  | caller _ made =>
    have executed := counts_caller Worker.executed rfl made
    have recorded := counts_caller (fun worker => recordedWeight worker.phase) rfl made
    have silent := (failed_caller made).1
    simp only [workerSum] at before ⊢
    simp only [executed, recorded, silent]
    exact before
  | @worker w worker new r _ there made =>
    have frame := (frame_of_workerTurn made).2
    have recorded := workerSum_setWorker recordedWeight there frame new
    have executed := tally_set Worker.executed there new
    have step := executed_step (sound.proper.workers w worker there) made
    rw [setWorker_workers, frame]
    omega

theorem Run.ownFailures_eq (run : Run (.new size) events p) :
    p.ownFailures = p.failed + p.workerSum betweenWeight := by
  change tally Worker.failed p.workers = p.failed + p.workerSum betweenWeight
  induction run with
  | start => rfl
  | next run made ih =>
    cases turn_of_step? made with
    | called | dropped | dozed => exact ih
    | caller _ turn =>
      have failures := counts_caller Worker.failed rfl turn
      have between := counts_caller (fun worker => betweenWeight worker.phase) rfl turn
      simp only [workerSum] at ih ⊢
      simp only [failures, between, goOn_failed, (failed_caller turn).2.1]
      exact ih
    | @worker w worker new r _ there turn =>
      have frame := (frame_of_workerTurn turn).2
      have between := workerSum_setWorker betweenWeight there frame new
      have failures := tally_set Worker.failed there new
      have step := failed_step (run.judged w worker there) turn
      rw [setWorker_workers, setWorker_failed, frame]
      omega

end Totals

section Tested

variable {v w : Nat} {ticket other : Ticket} {phase : WorkerPhase}

theorem handed_not_told {outcome : Outcome} {found : Option κ} {answer : Answer} :
    .handed v other ∉ told w ticket outcome found answer := by
  intro member
  obtain ⟨_, _, _, _, impossible | impossible⟩ := mem_told member <;> cases impossible

theorem not_handed_of_handing (account : Account w ticket (.handing other) deeds) (v : Nat)
    (done : Ticket) : .handed v done ∉ deeds := by
  cases account <;> simp [execution]

theorem Sound.not_handed (sound : Sound events p) (there : p.phase? w = some (.handing ticket))
    (v : Nat) (done : Ticket) (same : done.serial = ticket.serial) :
    .handed v done ∉ events := by
  intro member
  obtain ⟨c, first, deeds, _, record, account⟩ :=
    sound.recorded.held w (.handing ticket) ticket there rfl
  have listed : .handed v done ∈ about ticket.serial events :=
    List.mem_filter.mpr ⟨member, by simp [Event.serial?, same]⟩
  rw [record] at listed
  simp only [List.mem_cons, reduceCtorEq, false_or] at listed
  exact not_handed_of_handing account v done listed

theorem mem_handedTickets_iff : ticket ∈ handedTickets events ↔ ∃ w, .handed w ticket ∈ events := by
  constructor
  · intro member
    obtain ⟨event, known, same⟩ := List.mem_filterMap.mp member
    cases event <;> cases same
    exact ⟨_, known⟩
  · rintro ⟨w, member⟩
    exact mem_handedTickets member

theorem Run.handed_nodup (run : Run (.new size) events p) :
    ((handedTickets events).map (·.serial)).Nodup := by
  refine run.induct_sound (motive := fun events _ =>
    ((handedTickets events).map (·.serial)).Nodup) List.nodup_nil ?_
  intro events p q more sound before turn
  have silent : handedTickets more = [] →
      ((handedTickets (events ++ more)).map (·.serial)).Nodup := by
    intro none
    rw [handedTickets_append, none, List.append_nil]
    exact before
  cases turn with
  | called | dropped | dozed => exact silent rfl
  | caller _ made => exact silent (failed_caller made).1
  | @worker w worker _ _ _ there made =>
    have known := phase?_of_worker? there
    generalize worker.phase = phase at made known
    cases made with
    | @handed ticket =>
      rw [handedTickets_append, List.map_append, List.nodup_append]
      refine ⟨before, List.nodup_cons.mpr ⟨List.not_mem_nil, List.nodup_nil⟩, ?_⟩
      intro s old t new same
      obtain ⟨done, member, rfl⟩ := List.mem_map.mp old
      obtain ⟨v, handed⟩ := mem_handedTickets_iff.mp member
      rw [List.mem_singleton.mp new] at same
      exact sound.not_handed known v done same handed
    | _ => exact silent rfl

theorem Sound.handed_of_testing (sound : Sound events p)
    (there : p.phase? w = some (.testing ticket)) : .handed w ticket ∈ events := by
  obtain ⟨c, first, deeds, _, record, account⟩ :=
    sound.recorded.held w (.testing ticket) ticket there rfl
  refine mem_of_about record ?_
  cases account <;> simp

theorem Sound.eq_of_held (sound : Sound events p) {a b : WorkerPhase}
    (first : p.phase? v = some a) (second : p.phase? w = some b) (holds : a.held? = some ticket)
    (other : b.held? = some ticket) : v = w := by
  refine Classical.byContradiction fun apart => ?_
  have both := weight_two (heldWeight (serialIs ticket.serial)) first second apart
  have one := weigh_le_one sound.accounted ticket.serial
  simp only [heldWeight, holds, other, Option.map_some, Option.getD_some, serialIs, if_true] at both
  simp only [weigh, serialIs] at one
  omega

theorem phase?_of_testing? {worker : Worker} (there : p.worker? w = some worker)
    (tests : worker.phase.testing? = some ticket) : p.phase? w = some (.testing ticket) := by
  have known := phase?_of_worker? there
  generalize worker.phase = phase at tests known
  cases phase <;> cases tests
  exact known

theorem isTesting_iff : p.isTesting ticket = true ↔
    ticket ∈ p.workers.filterMap (·.phase.testing?) := by
  simp only [isTesting, List.any_eq_true, List.mem_filterMap, decide_eq_true_eq]
  constructor
  · rintro ⟨worker, member, phase⟩
    exact ⟨worker, member, by rw [phase]; rfl⟩
  · rintro ⟨worker, member, tests⟩
    obtain ⟨w, there⟩ := List.getElem?_of_mem member
    have known := phase?_of_testing? (p := p) there tests
    exact ⟨worker, member, Option.some.inj ((phase?_of_worker? there).symm.trans known)⟩

theorem Sound.testing_nodup (sound : Sound events p) :
    (p.workers.filterMap (·.phase.testing?)).Nodup := by
  refine List.pairwise_filterMap.mpr (List.pairwise_iff_getElem.mpr ?_)
  intro v w inside within less a first b second same
  subst same
  have here : p.worker? v = some p.workers[v] := List.getElem?_eq_getElem inside
  have there : p.worker? w = some p.workers[w] := List.getElem?_eq_getElem within
  have equal := sound.eq_of_held (phase?_of_testing? here first) (phase?_of_testing? there second)
    rfl rfl
  omega

theorem countP_testing (f : Ticket → Bool) (weight : WorkerPhase → Nat)
    (fits : ∀ phase, weight phase = (phase.testing?.map fun ticket => (f ticket).toNat).getD 0)
    (workers : List Worker) : tally (fun worker : Worker => weight worker.phase) workers =
      (workers.filterMap (·.phase.testing?)).countP f := by
  induction workers with
  | nil => rfl
  | cons worker workers ih =>
    rw [tally_cons, ih, fits, filterMap_cons_toList, List.countP_append]
    cases worker.phase.testing? with
    | none => rfl
    | some ticket => cases failed : f ticket <;> simp [failed]

theorem Run.failed_tested (run : Run (.new size) events p) :
    p.failed = (testedTickets events p).countP fun ticket => !ticket.job.isSuccessful := by
  have sound := run.sound
  have all := run.failed_eq
  have handed : (handedTickets events).Nodup :=
    (List.pairwise_map.mp run.handed_nodup).imp fun apart same => apart (congrArg _ same)
  -- without doubles, the jobs handed on that are being tested are those that workers are at
  have same : ((handedTickets events).filter p.isTesting).Perm
      (p.workers.filterMap (·.phase.testing?)) := by
    apply (List.perm_ext_iff_of_nodup (handed.filter _) sound.testing_nodup).mpr
    intro ticket
    rw [List.mem_filter, isTesting_iff]
    refine ⟨fun both => both.2, fun tests => ⟨?_, tests⟩⟩
    obtain ⟨worker, member, phase⟩ := List.mem_filterMap.mp tests
    obtain ⟨w, there⟩ := List.getElem?_of_mem member
    exact mem_handedTickets (sound.handed_of_testing (phase?_of_testing? there phase))
  have split := (List.filter_append_perm p.isTesting (handedTickets events)).countP_eq
    fun ticket => !ticket.job.isSuccessful
  have testing := countP_testing (fun ticket => !ticket.job.isSuccessful) failWeight
    (fun phase => by cases phase <;> rfl) p.workers
  rw [List.countP_append, same.countP_eq, ← testing] at split
  simp only [workerSum, tally_fails] at all
  rw [testedTickets]
  omega

theorem fails_told {serial : Nat} {outcome : Outcome} {found : Option κ} {answer : Answer} :
    (told w ticket outcome found answer).any (Event.failsPush serial) = false := by
  refine List.any_eq_false.mpr fun event member => ?_
  obtain ⟨_, _, _, _, rfl | rfl⟩ := mem_told member <;> exact Bool.false_ne_true

theorem fails_of_account (account : Account w ticket phase deeds)
    (member : .handed v other ∈ deeds) :
    deeds.any (Event.failsPush ticket.serial) = !other.job.isSuccessful := by
  cases account with
  | testing outcome asks | dispatching outcome asks | notifying outcome _ asks
  | releasing outcome _ _ asks =>
    simp [execution, handed_not_told] at member
    obtain ⟨-, rfl⟩ := member
    have judged := Job.isSuccessful_finished asks.work outcome
    simp [execution, fails_told, Event.failsPush, Ticket.finished, judged, Outcome.success_verdict]
  | stopTesting stop | stopDispatching stop | leaving _ stop | tearing _ stop | tallying _ stop
  | stopReleasing _ stop =>
    simp at member
    obtain ⟨-, rfl⟩ := member
    have none := Ticket.fails_of_termination stop
    simp only [Ticket.fails, Bool.toNat_eq_zero] at none
    simp [Event.failsPush, none]
  | _ => simp [execution] at member

theorem fails_of_closed (closed : Closed w ticket deeds) (member : .handed v other ∈ deeds) :
    deeds.any (Event.failsPush ticket.serial) = !other.job.isSuccessful := by
  cases closed with
  | handled outcome found answer asks =>
    simp [handling, execution, handed_not_told] at member
    obtain ⟨-, rfl⟩ := member
    have judged := Job.isSuccessful_finished asks.work outcome
    simp [handling, execution, fails_told, Event.failsPush, Ticket.finished, judged,
      Outcome.success_verdict]
  | stopped found stop =>
    simp [stopping] at member
    obtain ⟨-, rfl⟩ := member
    have none := Ticket.fails_of_termination stop
    simp only [Ticket.fails, Bool.toNat_eq_zero] at none
    simp [stopping, Event.failsPush, none]

theorem pushFailed_eq (serial : Nat) :
    pushFailed events serial = (about serial events).any (Event.failsPush serial) := by
  rw [about, List.any_filter]
  refine congrArg (fun test => events.any test) (funext fun event => ?_)
  cases event <;> simp [Event.failsPush, Event.serial?]

theorem Sound.pushFailed_of_handed (sound : Sound events p)
    (member : ticket ∈ handedTickets events) :
    pushFailed events ticket.serial = !ticket.job.isSuccessful := by
  obtain ⟨w, handed⟩ := mem_handedTickets_iff.mp member
  obtain ⟨c, v, first, deeds, serial, record, deed, known⟩ :=
    sound.record_of_deed handed rfl ⟨rfl, rfl⟩
  rw [pushFailed_eq, record]
  simp only [List.any_cons, Event.failsPush, Bool.false_or]
  rw [← serial]
  rcases known with closed | ⟨phase, there, account⟩
  · exact fails_of_closed closed deed
  · exact fails_of_account account deed

end Tested

/-- The counts of a pool after all that happened in it. -/
structure CountsAgree (events : List (Event κ)) (p : Pool κ) : Prop where
  /-- A job is handed to the pool once, so that no job is counted twice below. -/
  once : ((handedTickets events).map (·.serial)).Nodup
  /-- The pool's failures are the jobs that it has tested and that a store failed at. -/
  failed : p.failed = (testedTickets events p).countP fun ticket => pushFailed events ticket.serial
  /-- Of a termination nothing is executed, so it is none of them. -/
  stops : ∀ ticket ∈ handedTickets events, ticket.job.isTermination = true →
    pushFailed events ticket.serial = false
  executed : p.executed =
    ((handedTickets events).countP fun ticket => !ticket.job.isTermination) +
      p.workers.countP fun worker => worker.phase.isRecorded
  own : p.ownFailures = p.failed + p.workerSum betweenWeight
  agree : (∀ w phase, p.phase? w = some phase → phase.isBetween = false) →
    p.ownFailures = p.failed

theorem betweenWeight_of_not_between {phase : WorkerPhase} (none : phase.isBetween = false) :
    betweenWeight phase = 0 := by
  cases phase with
  | handing ticket | testing ticket =>
    simp only [WorkerPhase.isBetween, Bool.not_eq_false'] at none
    exact Ticket.fails_of_termination none
  | _ => rfl

theorem Run.counts_agree (run : Run (.new size) events p) : CountsAgree events p where
  once := run.handed_nodup
  failed := by
    rw [run.failed_tested]
    refine List.countP_congr fun ticket member => ?_
    rw [run.sound.pushFailed_of_handed (List.mem_filter.mp member).1]
  stops ticket member stop := by
    have none := Ticket.fails_of_termination stop
    rw [run.sound.pushFailed_of_handed member]
    exact Bool.toNat_eq_zero.mp none
  executed := by
    rw [← tally_toNat, ← tally_toNat]
    exact run.executed_eq
  own := run.ownFailures_eq
  agree none := by
    have between : p.workerSum betweenWeight = 0 := by
      refine tally_eq_zero _ fun worker member => ?_
      obtain ⟨w, there⟩ := List.getElem?_of_mem member
      exact betweenWeight_of_not_between (none w _ (phase?_of_worker? there))
    rw [run.ownFailures_eq, between, Nat.add_zero]

def double : PoolSize := ⟨2, 2, by decide, by decide⟩

/-- The first worker has abandoned a job that the pool counts as failed; the second one has counted
a failure that the pool has not tested yet. -/
def oneBetween : List (Move Nat) :=
  [.start 0 (.ok ()), .start 0 (.ok ()), .caller 0 none,
    .begin 0 (.submit (.transfer "a" "out")), .caller 0 none, .caller 0 none, .caller 0 none,
    .caller 0 none, .begin 0 (.submit (.transform "b" "dir" "")), .caller 0 none, .caller 0 none,
    .caller 0 none, .caller 0 none, .worker 0, .worker 1, .pushed 0 (.gaveUp "store"),
    .pushed 1 (.failed (.unreachable "b" "store")), .worker 0, .worker 0, .worker 0, .worker 0,
    .worker 1, .worker 1, .worker 1]

theorem counts_agree_of_oneBetween : ∃ change : Change Nat,
    (Pool.new double).follow oneBetween = some change ∧ change.1.failed = 1 ∧
      change.1.ownFailures = 2 ∧ CountsAgree change.2 change.1 := by
  have played : ((Pool.new double).follow oneBetween).any (fun change =>
      decide (change.1.failed = 1 ∧ change.1.ownFailures = 2)) = true := by
    decide
  obtain ⟨change, follows, both⟩ := (Option.any_eq_true _ _).mp played
  obtain ⟨failed, own⟩ := of_decide_eq_true both
  exact ⟨change, follows, failed, own, (Run.of_follow .start follows).counts_agree⟩

end Pool

end Spool
