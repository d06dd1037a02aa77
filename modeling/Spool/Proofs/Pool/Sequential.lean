import Spool.Proofs.Pool.Payloads

/-!
A pool does what a sequential one would do. When a store's answers depend on the jobs alone, the
jobs that the stores receive, what the callback is told and the counts are those of the script, for
any number of workers and in every interleaving; and a single worker keeps the order as well.
-/

namespace Spool

variable {κ : Type}

/-- What a callback is told of a submission whose job ended in the given way. -/
def Submission.notice (outcome : Outcome) : Submission → Notice
  | .transfer source _ => .copied source outcome.verdict.code
  | .transform source _ _ => .processed source outcome.verdict.code (outcome.digest.getD "")

/-- What a callback is told of a script that is carried out one job after the other. -/
def sequentialNotices (out : Job → Outcome) (move : Bool) : List Instruction → List Notice
  | [] => []
  | .submit submission :: rest =>
    submission.notice (out (submission.job move)) :: sequentialNotices out move rest
  | .switch on :: rest => sequentialNotices out on rest

theorem payloads_sequential (callback : κ) (out : Job → Outcome) (move : Bool)
    (script : List Instruction) : (sequential move script).filterMap (Job.payload? callback out) =
      (sequentialNotices out move script).map fun notice => (callback, notice) := by
  induction script generalizing move with
  | nil => rfl
  | cons instruction script ih =>
    cases instruction with
    | submit submission =>
      rw [sequential, sequentialNotices, List.map_cons, ← ih, Pool.filterMap_cons_toList]
      cases submission <;> rfl
    | switch on => exact ih on

namespace Pool

variable {p q : Pool κ} {events more : List (Event κ)} {size : PoolSize} {callback : κ}
  {out : Job → Outcome}

section Settled

/-- What the worker still has to do concerns no work. -/
structure Leaves (out : Job → Outcome) (phase : WorkerPhase) : Prop where
  untold : phase.untold? out = none
  recorded : recordedWeight phase = 0
  failing : failWeight phase = 0
  unhanded : ∀ g : Ticket → Nat, (∀ ticket, ticket.job.isTermination = true → g ticket = 0) →
    unhandedWeight out g phase = 0

theorem leaves_of_isStopped {phase : WorkerPhase} (fits : phase.Proper)
    (stopped : phase.isStopped = true) : Leaves out phase := by
  cases phase with
  | pushing ticket => cases fits.2.symm.trans stopped
  | counting ticket | countingFailure ticket => cases fits.symm.trans stopped
  | handing ticket =>
    have stop : ticket.job.isTermination = true := stopped
    have none : recordedWeight (.handing ticket) = 0 := by
      simp [recordedWeight, WorkerPhase.isRecorded, stop]
    exact ⟨Job.notice?_eq_none_iff.mpr stopped, none, rfl, fun g none => none ticket stopped⟩
  | testing ticket =>
    exact ⟨Job.notice?_eq_none_iff.mpr stopped, rfl, Ticket.fails_of_termination stopped,
      fun g none => rfl⟩
  | dispatching ticket => exact ⟨Job.notice?_eq_none_iff.mpr stopped, rfl, rfl, fun g none => rfl⟩
  | _ => exact ⟨rfl, rfl, rfl, fun g none => rfl⟩

theorem Sound.leaves (sound : Sound events p) (down : p.lifecycle = .tornDown) {w : Nat}
    {phase : WorkerPhase} (there : p.phase? w = some phase) : Leaves out phase := by
  obtain ⟨worker, found, rfl⟩ := worker?_of_phase? there
  exact leaves_of_isStopped (sound.proper.workers w worker found)
    (isStopped_of_all (sound.all_stopped down).2 there)

theorem workerSum_eq_zero {f : WorkerPhase → Nat}
    (none : ∀ w phase, p.phase? w = some phase → f phase = 0) : p.workerSum f = 0 := by
  refine tally_eq_zero _ fun worker member => ?_
  obtain ⟨w, there⟩ := List.getElem?_of_mem member
  exact none w _ (phase?_of_worker? there)

theorem inHand?_of_quiet (quiet : p.Quiet) (c : Nat) : p.inHand? c = none := by
  cases there : p.call? c with
  | none => simp [inHand?, there]
  | some phase =>
    have other := quiet c phase there
    rw [inHand?, there, Option.bind_some]
    cases phase with
    | opening | making => cases other
    | counting _ _ goal | putting _ goal => cases goal <;> first | rfl | cases other
    | _ => rfl

theorem Run.works_of_down {c : Nat} (run : Run (.new size) events p)
    (guided : Guided callback c out events) (down : p.lifecycle = .tornDown) :
    works (removedTickets events) = sequential false (script events) := by
  have sound := run.sound
  have running := sound.staged.running (by rw [down]; exact fun impossible => by cases impossible)
  have ending : p.isEnding = true := by
    rw [running.isEnding_eq sound.staged, down]
    rfl
  have sorted := run.sorted_of_orderly guided.orderly ending
  have jobs := (run.follows guided.orderly guided.mine).jobs
  rw [sound.accounted.order, sorted.empty sound (sound.all_stopped down).2,
    inHand?_of_quiet sorted.quiet] at jobs
  simpa using jobs

theorem fails_finished (ticket : Ticket) (outcome : Outcome) :
    (ticket.finished outcome).fails =
      (outcome.isFailure && !ticket.job.isTermination).toNat := by
  cases stop : ticket.job.isTermination with
  | true =>
    rw [Ticket.fails_of_termination ((ticket.isTermination_finished outcome).trans stop)]
    simp
  | false =>
    rw [Ticket.fails, Ticket.finished, Job.isSuccessful_finished stop, Outcome.success_verdict]
    simp

theorem Run.counts_of_down (run : Run (.new size) events p) (answers : Answered out events)
    (down : p.lifecycle = .tornDown) :
    p.executed = (works (removedTickets events)).length ∧
      p.failed = (works (removedTickets events)).countP fun job => (out job).isFailure := by
  have sound := run.sound
  have leaves : ∀ w phase, p.phase? w = some phase → Leaves out phase := fun _ _ =>
    sound.leaves down
  have handed : ∀ g : Ticket → Nat, (∀ ticket, ticket.job.isTermination = true → g ticket = 0) →
      tally g (handedTickets events) =
        tally (fun ticket => g (ticket.finished (out ticket.job))) (removedTickets events) := by
    intro g none
    have all := run.handed_tally g answers
    rwa [workerSum_eq_zero fun w phase there => (leaves w phase there).unhanded g none] at all
  constructor
  · have executed := run.executed_eq
    rw [workerSum_eq_zero fun w phase there => (leaves w phase there).recorded,
      handed _ fun ticket stop => by rw [Ticket.works, stop]; rfl] at executed
    simp only [Ticket.works, Ticket.isTermination_finished, tally_toNat] at executed
    rw [executed, works, List.length_map, List.countP_eq_length_filter]
    rfl
  · have failed := run.failed_eq
    rw [workerSum_eq_zero fun w phase there => (leaves w phase there).failing,
      handed _ fun ticket => Ticket.fails_of_termination] at failed
    simp only [fails_finished, tally_toNat] at failed
    rw [works, List.countP_map, List.countP_filter]
    exact failed

theorem Run.payloads_of_down {c : Nat} (run : Run (.new size) events p)
    (guided : Guided callback c out events) (down : p.lifecycle = .tornDown) (w : Nat) :
    under w (notices events) =
      (works (under w (takings events))).filterMap (Job.payload? callback out) := by
  have sound := run.sound
  have told := run.told_under guided w
  have none : (p.phase? w).bind (WorkerPhase.untold? out) = none := by
    cases there : p.phase? w with
    | none => rfl
    | some phase => exact (sound.leaves down there).untold
  rw [untold, none] at told
  simpa using told

end Settled

section Workers

theorem Run.worker_lt (run : Run (.new size) events p) {w : Nat}
    (heard : ∃ event ∈ events, event.worker? = some w) : w < size.workers := by
  obtain ⟨event, member, own⟩ := heard
  obtain ⟨before, after, split⟩ := List.append_of_mem member
  obtain ⟨earlier, mid, first, rest, next, later, begins, turn, -⟩ := run.cut split
  have heard : event ∈ first ++ event :: rest := List.mem_append_right _ List.mem_cons_self
  generalize first ++ event :: rest = heard at turn heard
  cases turn with
  | called | dropped => cases List.mem_singleton.mp heard; cases own
  | dozed => cases heard
  | caller _ made => cases (worker?_of_callerTurn made event heard).symm.trans own
  | worker there made =>
    cases (worker?_of_workerTurn made event heard).symm.trans own
    have most := workers_le begins.sound.staged
    rw [begins.size_eq] at most
    exact Nat.lt_of_lt_of_le (List.getElem?_eq_some_iff.mp there).1 most

theorem Run.payloads_perm {c : Nat} (run : Run (.new size) events p)
    (guided : Guided callback c out events) (down : p.lifecycle = .tornDown) :
    (payloads events).Perm
      ((works (removedTickets events)).filterMap (Job.payload? callback out)) ∧
    (size.workers = 1 → payloads events =
      (works (removedTickets events)).filterMap (Job.payload? callback out)) := by
  have told := run.payloads_of_down guided down
  have taken : ∀ entry ∈ takings events, entry.1 < size.workers := fun entry member =>
    run.worker_lt (mem_of_takings member)
  have notified : ∀ entry ∈ notices events, entry.1 < size.workers := fun entry member =>
    run.worker_lt (mem_of_notices member)
  -- worker by worker, what was told fits what was taken
  have grouped : ∀ workers : List Nat, (workers.flatMap fun w => under w (notices events)) =
      (works (workers.flatMap fun w => under w (takings events))).filterMap
        (Job.payload? callback out) := by
    intro workers
    induction workers with
    | nil => rfl
    | cons w workers ih =>
      rw [List.flatMap_cons, List.flatMap_cons, works_append, List.filterMap_append, told, ih]
  rw [removedTickets_eq]
  constructor
  · refine ((map_perm_under notified).trans (.of_eq (grouped _))).trans (.filterMap _ ?_)
    exact (((map_perm_under taken).symm.filter _).map _)
  · intro one
    have this := told 0
    rw [under_of_forall fun entry member => Nat.lt_one_iff.mp (one ▸ notified entry member),
      under_of_forall fun entry member => Nat.lt_one_iff.mp (one ▸ taken entry member)] at this
    exact this

end Workers

/-- One thread's script was carried out, and the drain was waited for. Other threads submit nothing
and leave the move mode. -/
structure Scripted (callback : κ) (c : Nat) (script : List Instruction) (out : Job → Outcome)
    (events : List (Event κ)) : Prop where
  given : instructions events = script.map fun instruction => (c, instruction)
  attended : Attended callback events
  answers : Answered out events
  orderly : EndedLast events
  /-- A call that ended the transaction returned, and then a call that waited for the drain. -/
  awaited : ∃ before d during after, Returned events before d .waitForUpload during after ∧
    ∃ first e middle last, Returned before first e .endTransaction middle last

/-- The jobs that stores received, what the callback was told and the counts are the same. -/
structure Alike (events : List (Event κ)) (p : Pool κ) (others : List (Event κ)) (q : Pool κ) :
    Prop where
  jobs : (received events).Perm (received others)
  told : (payloads events).Perm (payloads others)
  failed : p.failed = q.failed
  executed : p.executed = q.executed

/-- The pool has done what a sequential one would do with the script. -/
structure Refines (size : PoolSize) (callback : κ) (script : List Instruction)
    (out : Job → Outcome) (events : List (Event κ)) (p : Pool κ) : Prop where
  jobs : (received events).Perm (sequential false script)
  told : (payloads events).Perm
    ((sequentialNotices out false script).map fun notice => (callback, notice))
  failed : p.failed = (sequential false script).countP fun job => (out job).isFailure
  executed : p.executed = (sequential false script).length
  /-- A single worker keeps the order, too. -/
  inOrder : size.workers = 1 → received events = sequential false script ∧
    payloads events = (sequentialNotices out false script).map fun notice => (callback, notice)
  /-- So has every other pool, of whatever size, in whatever interleaving. -/
  alike : ∀ {size : PoolSize} {d : Nat} {others : List (Event κ)} {q : Pool κ},
    Run (.new size) others q → Scripted callback d script out others → Alike events p others q

theorem Scripted.guided {c : Nat} {script : List Instruction}
    (scripted : Scripted callback c script out events) (run : Run (.new size) events p) :
    Guided callback c out events := by
  refine ⟨run.submissionsFirst scripted.orderly, ?_, scripted.attended, scripted.answers⟩
  rw [scripted.given]
  intro entry member
  obtain ⟨_, _, rfl⟩ := List.mem_map.mp member
  rfl

theorem Run.down_of_waited {before during after first middle last : List (Event κ)} {d e : Nat}
    (run : Run (.new size) events p) (waited : Returned events before d .waitForUpload during after)
    (closed : Returned before first e .endTransaction middle last) : p.lifecycle = .tornDown := by
  obtain ⟨_, next, m, q, through, _, _, _, passage, rfl, rfl⟩ := run.passage waited
  obtain ⟨none, _, stage, _⟩ := passage.ends_idle fun ending member =>
    waited.inside ending (List.mem_append_left _ member)
  have whole : Returned (before ++ .called d .waitForUpload :: through) first e .endTransaction
      middle (last ++ .called d .waitForUpload :: through) :=
    ⟨by rw [closed.split]; simp, closed.inside⟩
  -- nothing is pending and no termination is to come: each worker has executed its own
  obtain ⟨ending, scheduled⟩ := passage.whole.none_toCome whole
  have built := passage.goes.begun_after fun early =>
    begun_of_called passage.called (uninitialized_of_turn passage.called early).1
  obtain ⟨_, made⟩ := passage.made
  exact passage.later.down_after (passage.whole.next made).sound
    (stage.trans (passage.whole.torn_of_idle built ending scheduled none).2)

theorem Run.sequential_of_scripted {c : Nat} {given : List Instruction}
    (run : Run (.new size) events p) (scripted : Scripted callback c given out events) :
    (received events = sequential false given ∧ (payloads events).Perm
      ((sequentialNotices out false given).map fun notice => (callback, notice)) ∧
      (size.workers = 1 → payloads events =
        (sequentialNotices out false given).map fun notice => (callback, notice))) ∧
    p.failed = (sequential false given).countP (fun job => (out job).isFailure) ∧
      p.executed = (sequential false given).length := by
  have guided := scripted.guided run
  obtain ⟨_, _, _, _, waited, _, _, _, _, closed⟩ := scripted.awaited
  have down := run.down_of_waited waited closed
  have works := run.works_of_down guided down
  have same : script events = given := by
    rw [script, scripted.given, List.map_map]
    exact List.map_id _
  rw [same] at works
  obtain ⟨executed, failed⟩ := run.counts_of_down scripted.answers down
  have told := run.payloads_perm guided down
  rw [works, payloads_sequential] at told
  rw [works] at executed failed
  exact ⟨⟨run.received_eq.trans works, told⟩, failed, executed⟩

theorem Run.refines {c : Nat} {script : List Instruction} (run : Run (.new size) events p)
    (scripted : Scripted callback c script out events) :
    Refines size callback script out events p := by
  obtain ⟨⟨jobs, told, inOrder⟩, failed, executed⟩ := run.sequential_of_scripted scripted
  refine ⟨.of_eq jobs, told, failed, executed, fun one => ⟨jobs, inOrder one⟩, ?_⟩
  intro size d others q other same
  obtain ⟨⟨jobs', told', _⟩, failed', executed'⟩ := other.sequential_of_scripted same
  exact ⟨.of_eq (jobs.trans jobs'.symm), told.trans told'.symm, failed.trans failed'.symm,
    executed.trans executed'.symm⟩

theorem scripted_of_returned {c d e : Nat} {script : List Instruction}
    {before during after first middle last : List (Event κ)}
    (given : instructions events = script.map fun instruction => (c, instruction))
    (attended : Attended callback events) (answers : Answered out events)
    (orderly : SubmissionsFirst events)
    (waited : Returned events before d .waitForUpload during after)
    (closed : Returned before first e .endTransaction middle last) :
    Scripted callback c script out events :=
  ⟨given, attended, answers, orderly.endedLast, _, _, _, _, waited, _, _, _, _, closed⟩

/-- A file to be copied, and one to be compressed and then removed. -/
def copyThenMove : List Instruction :=
  [.submit (.transfer "a" "out"), .switch true, .submit (.transform "b" "dir" ".gz")]

def transformsOnly : Job → Outcome
  | .transfer _ => .gaveUp "store"
  | .transform _ | .termination => .stored "hash"

/-- The second worker takes the first job, and is done with it last. -/
def overtaken : List (Move Nat) :=
  [.start 0 (.ok ()), .start 0 (.ok ()), .caller 0 none, .begin 0 (.setCallback 7), .caller 0 none,
    .begin 0 (.submit (.transfer "a" "out")), .caller 0 none, .caller 0 none, .caller 0 none,
    .caller 0 none, .begin 0 (.setMoveMode true), .caller 0 none,
    .begin 0 (.submit (.transform "b" "dir" ".gz")), .caller 0 none, .caller 0 none, .caller 0 none,
    .caller 0 none, .worker 1, .caller 0 none, .begin 0 .endTransaction, .caller 0 none,
    .caller 0 none, .caller 0 none, .worker 0, .caller 0 none, .caller 0 none, .caller 0 none,
    .pushed 0 (.stored "hash"), .worker 0, .worker 0, .worker 0, .worker 0,
    .notified 0 (.gaveUp "callback"), .worker 0, .worker 0, .caller 0 none, .begin 0 .waitForUpload,
    .caller 0 none, .worker 0, .worker 0, .worker 0, .worker 0, .worker 0,
    .pushed 1 (.gaveUp "store"), .worker 1, .worker 1, .worker 1, .worker 1, .worker 1,
    .notified 1 .returned, .worker 1, .worker 1, .worker 1, .worker 1, .worker 1, .worker 1,
    .worker 1, .worker 1, .worker 1, .caller 0 none]

/-- The same, with a single worker. -/
def oneByOne : List (Move Nat) :=
  [.start 0 (.ok ()), .caller 0 none, .begin 0 (.setCallback 7), .caller 0 none,
    .begin 0 (.submit (.transfer "a" "out")), .caller 0 none, .caller 0 none, .caller 0 none,
    .caller 0 none, .begin 0 (.setMoveMode true), .caller 0 none,
    .begin 0 (.submit (.transform "b" "dir" ".gz")), .caller 0 none, .caller 0 none, .caller 0 none,
    .caller 0 none, .worker 0, .caller 0 none, .begin 0 .endTransaction, .caller 0 none,
    .caller 0 none, .caller 0 none, .pushed 0 (.gaveUp "store"), .worker 0, .worker 0, .worker 0,
    .worker 0, .worker 0, .notified 0 (.gaveUp "callback"), .worker 0, .worker 0, .caller 0 none,
    .begin 0 .waitForUpload, .caller 0 none, .pushed 0 (.stored "hash"), .worker 0, .worker 0,
    .worker 0, .worker 0, .notified 0 (.gaveUp "callback"), .worker 0, .worker 0, .worker 0,
    .worker 0, .worker 0, .worker 0, .worker 0, .worker 0, .worker 0, .caller 0 none]

theorem refines_of_overtaken : ∃ change other : Change Nat,
    (Pool.new narrow).follow overtaken = some change ∧
      (Pool.new single).follow oneByOne = some other ∧
      Scripted 7 0 copyThenMove transformsOnly change.2 ∧
      Scripted 7 0 copyThenMove transformsOnly other.2 ∧
      payloads change.2 = [(7, .processed "b" 0 "hash"), (7, .copied "a" (-1))] ∧
      Refines narrow 7 copyThenMove transformsOnly change.2 change.1 ∧
      Refines single 7 copyThenMove transformsOnly other.2 other.1 ∧
      Alike change.2 change.1 other.2 other.1 := by
  have played : ((Pool.new narrow).follow overtaken).any (fun change =>
      decide ((instructions change.2 = copyThenMove.map (fun instruction => (0, instruction)) ∧
          Attended 7 change.2 ∧ Answered transformsOnly change.2 ∧ SubmissionsFirst change.2) ∧
        Returned change.2 (change.2.take 36) 0 .waitForUpload ((change.2.take 52).drop 37)
          (change.2.drop 53) ∧
        Returned (change.2.take 36) (change.2.take 20) 0 .endTransaction
          ((change.2.take 35).drop 21) [] ∧
        payloads change.2 = [(7, .processed "b" 0 "hash"), (7, .copied "a" (-1))])) = true := by
    decide
  have alone : ((Pool.new single).follow oneByOne).any (fun change =>
      decide ((instructions change.2 = copyThenMove.map (fun instruction => (0, instruction)) ∧
          Attended 7 change.2 ∧ Answered transformsOnly change.2 ∧ SubmissionsFirst change.2) ∧
        Returned change.2 (change.2.take 31) 0 .waitForUpload ((change.2.take 43).drop 32)
          (change.2.drop 44) ∧
        Returned (change.2.take 31) (change.2.take 18) 0 .endTransaction
          ((change.2.take 30).drop 19) [])) = true := by
    decide
  obtain ⟨change, follows, holds⟩ := (Option.any_eq_true _ _).mp played
  obtain ⟨⟨given, attended, answers, orderly⟩, waited, closed, told⟩ := of_decide_eq_true holds
  have scripted : Scripted 7 0 copyThenMove transformsOnly change.2 :=
    scripted_of_returned given attended answers orderly waited closed
  obtain ⟨other, follows', holds'⟩ := (Option.any_eq_true _ _).mp alone
  obtain ⟨⟨given', attended', answers', orderly'⟩, waited', closed'⟩ := of_decide_eq_true holds'
  have scripted' : Scripted 7 0 copyThenMove transformsOnly other.2 :=
    scripted_of_returned given' attended' answers' orderly' waited' closed'
  have run := Run.of_follow .start follows
  have run' := Run.of_follow .start follows'
  exact ⟨change, other, follows, follows', scripted, scripted', told, run.refines scripted,
    run'.refines scripted', (run.refines scripted).alike run' scripted'⟩

end Pool

end Spool
