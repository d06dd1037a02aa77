import Spool.Proofs.Pool.Launch

/-!
A pool that cannot be built is given up for good. Its workers and its builder have only so many steps
left, one of them can always take a step, and when the builder returns nothing is left behind.
-/

namespace Spool

variable {κ : Type}

/-- The steps that a worker has left at most, if it is to leave. -/
def WorkerPhase.stepsLeft : WorkerPhase → Nat
  | .fetching => 15
  | .pushing _ => 14
  | .counting .. => 13
  | .countingFailure _ => 12
  | .handing _ => 11
  | .testing _ => 10
  | .dispatching _ => 9
  | .notifying _ => 8
  | .leaving _ => 7
  | .tearing _ => 6
  | .tallying _ => 5
  | .releasing _ => 4
  | .lastOut _ => 3
  | .waking _ => 2
  | .exited => 0

/-- The steps that a builder has left at most if the worker numbered `k` cannot be started, with
those of the workers that it is yet to start. -/
def CallPhase.stepsLeft (k : Nat) : CallPhase κ → Nat
  | .starting n => 17 * (k - n) + 3 * k + 2
  | .counting _ more _ => 2 * more + k + 3
  | .putting more _ => 2 * more + k + 2
  | .joining n _ => k - n + 1
  | _ => 0

namespace Pool

variable {p q : Pool κ} {events more : List (Event κ)} {size : PoolSize} {k : Nat}
  {error : WorkerError} {outcome : Nat → Except StartFault Unit} {fault : StartFault}

/-- More than the steps that are left. A step makes one thread more awake at most, and whoever is
awake may go to sleep without having come any further. -/
def effort (k : Nat) (p : Pool κ) : Nat :=
  2 * (p.callSum (CallPhase.stepsLeft k) + p.workerSum WorkerPhase.stepsLeft) + p.queue.awake

theorem stepsLeft_worker {w : Nat} {worker new : Worker} {phase : WorkerPhase}
    (stops : phase.isStopped = true ∨ phase = .fetching)
    (turn : WorkerTurn p w worker phase new q more) : new.phase.stepsLeft < phase.stepsLeft := by
  cases turn with
  | counted | unheard | left =>
    rw [apply_ite WorkerPhase.stepsLeft]
    split <;> simp [WorkerPhase.stepsLeft]
  | released _ kind | woke kind =>
    rcases stops with stop | impossible
    · rw [WorkerPhase.isStopped, kind] at stop
      cases stop
    · cases impossible
  | _ => simp [WorkerPhase.stepsLeft]

theorem awake_worker {w : Nat} {worker new : Worker} {phase : WorkerPhase}
    (stops : phase.isStopped = true ∨ phase = .fetching) (alone : p.queue.putters.length ≤ 1)
    (turn : WorkerTurn p w worker phase new q more) : q.queue.awake ≤ p.queue.awake + 1 := by
  cases turn with
  | stopped | fetched =>
    exact Nat.le_trans (Queue.awake_remove _ _) (Nat.add_le_add_left alone _)
  | released _ kind | woke kind =>
    rcases stops with stop | impossible
    · rw [WorkerPhase.isStopped, kind] at stop
      cases stop
    · cases impossible
  | _ => exact Nat.le_succ _

theorem awake_caller (distinct : p.queue.Distinct) {c : Nat} {phase : CallPhase κ}
    {next : Option (CallPhase κ)} (turn : CallerTurn p c phase next q more) :
    q.queue.awake ≤ p.queue.awake + 1 := by
  cases turn with
  | started => exact Nat.le_of_eq (Queue.awake_beginGet _)
  | counted => exact Nat.le_of_eq (Queue.awake_beginPut _ _)
  | put => exact Queue.awake_append distinct _ _
  | _ => exact Nat.le_succ _

namespace Launching

variable (launching : Launching k error events p)

include launching

theorem length_putters (linked : p.Linked) : p.queue.putters.length ≤ 1 := by
  have same : ∀ thread ∈ p.queue.putters.map (·.thread), thread = .caller builder := by
    intro thread member
    obtain ⟨c, _, _, rfl, there⟩ := (linked.putters thread).mp member
    rw [launching.sole c _ there]
  have one := List.nodup_replicate.mp
    (List.eq_replicate_of_mem same ▸ linked.distinct.putters)
  rwa [List.length_map] at one

theorem stepsLeft_builder {phase : CallPhase κ} {next : Option (CallPhase κ)}
    (there : p.call? builder = some phase) (turn : CallerTurn p builder phase next q more)
    (told : Told k error phase next) :
    (next.map (CallPhase.stepsLeft k)).getD 0 + q.workerSum WorkerPhase.stepsLeft <
      phase.stepsLeft k + p.workerSum WorkerPhase.stepsLeft := by
  have point := launching.point
  rw [there] at point
  generalize asking events = asked at point
  generalize (countedTickets events).length = counted at point
  generalize joining events = joined at point
  generalize endings events = ended at point
  generalize workers : p.workers.length = started at point
  cases point with
  | starting le =>
    have told := told _ rfl
    cases turn with
    | started =>
      rcases told with ⟨less, _⟩ | ⟨_, known⟩
      · simp [CallPhase.stepsLeft, workerSum, WorkerPhase.stepsLeft]
        omega
      · cases (Goal.goal?_of_next known.symm).2
    | abandoned =>
      rw [workers]
      cases started with
      | zero => simp [CallPhase.stepsLeft, Goal.next]; omega
      | succ n => simp [CallPhase.stepsLeft, Goal.next]; omega
    | built => simp [CallPhase.stepsLeft, workerSum]
  | counting sum =>
    cases turn with
    | counted => simp [CallPhase.stepsLeft, workerSum]
  | @putting more _ sum =>
    cases turn with
    | put =>
      cases more with
      | zero => simp [CallPhase.stepsLeft, workerSum, Goal.next]
      | succ more => simp [CallPhase.stepsLeft, workerSum, Goal.next]; omega
  | @joining n le =>
    cases turn with
    | joined found =>
      have inside : n < p.workers.length := (List.getElem?_eq_some_iff.mp found).1
      simp [CallPhase.stepsLeft]
      omega
    | allJoined => simp [CallPhase.stepsLeft]

/-- Every step leaves less to do. -/
theorem effort_lt (sound : Sound events p) (advance : Advance k error p more q) :
    q.effort k < p.effort k := by
  cases advance with
  | @builder phase next r _ there turn told =>
    have calls := callSum_caller (CallPhase.stepsLeft k) sound.staged.callers there turn
    have awake := awake_caller sound.linked.distinct turn
    have left := launching.stepsLeft_builder there turn told
    have workers : (r.goOn builder next).workerSum WorkerPhase.stepsLeft =
        r.workerSum WorkerPhase.stepsLeft := by rw [workerSum, goOn_workers, workerSum]
    rw [effort, effort, goOn_queue, workers]
    omega
  | @worker w worker new r _ there turn =>
    have stops := launching.stopped w _ (phase?_of_worker? there)
    have calls := callSum_worker (f := CallPhase.stepsLeft k) rfl turn
    have workers := workerSum_setWorker WorkerPhase.stepsLeft there (frame_of_workerTurn turn).2 new
    have awake := awake_worker stops (launching.length_putters sound.linked) turn
    have left := stepsLeft_worker stops turn
    rw [effort, effort, setWorker_queue, calls]
    omega
  | rests fewer => exact Nat.add_lt_add_left fewer _

end Launching

/-- So many moves lead from one state to another, and nobody is woken for nothing. -/
inductive Paces (outcome : Nat → Except StartFault Unit) (p : Pool κ) : Nat → Pool κ → Prop
  | rest : Paces outcome p 0 p
  | next {n : Nat} {q r : Pool κ} {move : Move κ} {more : List (Event κ)} : Paces outcome p n q →
      Grants outcome q move → (∀ thread, move ≠ .rouse thread) → q.step? move = some (r, more) →
      Paces outcome p (n + 1) r

/-- What a builder leaves behind that has returned. -/
structure GivenUp (k : Nat) (error : WorkerError) (events : List (Event κ)) (p : Pool κ) : Prop where
  /-- It returned once, and all of this came before. -/
  last : endings events = [.notStarted error] ∧
    ∃ before, events = before ++ [.ended builder (.notStarted error)]
  calls : p.calls = []
  asked : asking events = List.range (k + 1)
  scheduled : (countedTickets events).length = k ∧
    ∀ ticket ∈ countedTickets events, ticket.job.isTermination = true
  taken : ∀ w, w < k → ∃ ticket, removedBy w events = [ticket] ∧ ticket.job.isTermination = true
  exited : p.workers.length = k ∧ ∀ w, w < k → p.phase? w = some .exited
  joined : joining events = List.range k
  pending : p.pending = 0

/-- What a launch does in which the worker numbered `k` cannot be started. -/
structure Abandons (size : PoolSize) (outcome : Nat → Except StartFault Unit) (k : Nat)
    (error : WorkerError) (events : List (Event κ)) (p : Pool κ) : Prop where
  stage : p.lifecycle = .uninitialized
  /-- It is never torn down, and never close to that. -/
  kept : p.teardowns = 0 ∧ (∀ w, .tornDown w ∉ events) ∧ p.terminationsExecuted < size.workers
  unbegun : ∀ w kind ticket, .began w kind ticket ∉ events
  /-- Until the builder returns, somebody can go on, and not just by being woken for nothing. -/
  moves : (∀ ending, .ended builder ending ∉ events) → ∃ move, Grants outcome p move ∧
    (∀ thread, move ≠ .rouse thread) ∧ (p.step? move).isSome = true
  /-- Nobody goes on for ever. -/
  paces : ∀ n q, Paces outcome p n q → n ≤ p.effort k
  returned : ∀ ending, .ended builder ending ∈ events →
    ending = .notStarted error ∧ GivenUp k error events p

theorem removed_of_removedBy {w : Nat} {ticket : Ticket} (member : ticket ∈ removedBy w events) :
    .removed w ticket ∈ events := by
  obtain ⟨event, heard, found⟩ := List.mem_filterMap.mp member
  cases event with
  | removed v taken =>
    simp only [Event.removedBy?] at found
    split at found
    · next same =>
      cases found
      exact same ▸ heard
    · cases found
  | _ => cases found

section Ends

variable (few : k < size.workers) (fails : outcome k = .error fault)
  (fine : ∀ j < k, outcome j = .ok ()) (launch : Launch size outcome events p)

include few fails fine launch

theorem Launch.of_paces {n : Nat} (paces : Paces outcome p n q) :
    (∃ more, Launch size outcome (events ++ more) q) ∧ n + q.effort k ≤ p.effort k := by
  induction paces with
  | rest => exact ⟨⟨[], (List.append_nil events).symm ▸ launch⟩, Nat.le_of_eq (Nat.zero_add _)⟩
  | next _ grants calm made ih =>
    obtain ⟨⟨more, goes⟩, left⟩ := ih
    have launching := goes.launching few fails fine
    have size := goes.run.size_eq
    have fewer := launching.effort_lt goes.run.sound
      (launching.advance_of_step? (size ▸ few) fails fine grants calm made)
    exact ⟨⟨_, (List.append_assoc ..).symm ▸ goes.next grants made⟩, by omega⟩

theorem Launch.orderly : SubmissionsFirst events := by
  intro before c call after cut
  obtain ⟨mid, next, _, turn, goes⟩ := launch.run.split cut
  have begun : next.lifecycle ≠ .uninitialized := by
    rw [(frame_of_called turn).2.1]
    exact begun_of_called turn
  exact absurd (launch.launching few fails fine).stage (goes.begun_after begun)

theorem Launch.moves (inside : p.call? builder ≠ none) : ∃ move, Grants outcome p move ∧
    (∀ thread, move ≠ .rouse thread) ∧ (p.step? move).isSome = true := by
  have calls : p.calls ≠ [] := fun none => inside (by rw [call?, none]; rfl)
  obtain ⟨thread, moves⟩ := launch.run.exists_canMove (launch.orderly few fails fine) calls
  cases thread with
  | caller c =>
    rcases moves with ⟨woken, some⟩ | starts
    · exact ⟨.caller c woken, trivial, by simp, some⟩
    · obtain ⟨⟨q, more⟩, made⟩ := Option.isSome_iff_exists.mp (starts (.ok ()))
      obtain ⟨n, _, _, there, _⟩ := startReply?_cases made
      refine ⟨.start c ((outcome n).mapError (StartFault.error n)), fun m found => ?_, by simp,
        starts _⟩
      cases there.symm.trans found
      rfl
  | worker w =>
    rcases moves with step | pushes | answers
    · exact ⟨.worker w, trivial, by simp, step⟩
    · exact ⟨.pushed w (.stored ""), trivial, by simp, pushes _⟩
    · exact ⟨.notified w .returned, trivial, by simp, answers _⟩

theorem Launch.givenUp (gone : p.call? builder = none) : GivenUp k (fault.error k) events p := by
  have sound := launch.run.sound
  have launching := launch.launching few fails fine
  have point := launching.point
  rw [gone] at point
  obtain ⟨workers, asked, counted, joined, ended⟩ := point.of_none
  have calls : p.calls = [] := by
    refine List.eq_nil_iff_forall_not_mem.mpr fun ⟨c, phase⟩ member => ?_
    have there : p.call? c = some phase := lookup_of_mem sound.staged.callers member
    rw [launching.sole c phase there, gone] at there
    cases there
  have exited : ∀ w, w < k → p.phase? w = some .exited := fun w inside =>
    launching.exited w (joined ▸ List.mem_range.mpr inside)
  have left : ∀ f : WorkerPhase → Nat, p.workerSum f = p.workers.length * f .exited :=
    workerSum_of_exited fun w inside => exited w (workers ▸ inside)
  have items := launch.run.empty_of_stopped (launch.orderly few fails fine)
    ((left stopWeight).trans (Nat.mul_one _))
  refine ⟨⟨ended, launching.last gone⟩, calls, asked, ⟨counted, launching.stops⟩, fun w inside => ?_,
    ⟨workers, exited⟩, joined, ?_⟩
  · have took := launch.run.removed.took w
    rw [exited w inside] at took
    obtain ⟨front, last, split, stop, others⟩ : StopsLast (removedBy w events) := took
    -- whatever was taken was a termination, so only the last was taken
    cases front with
    | nil => exact ⟨last, split, stop⟩
    | cons ticket front =>
      have member : ticket ∈ removedBy w events := split ▸ List.mem_cons_self
      have heard : .removed w ticket ∈ events := removed_of_removedBy member
      obtain ⟨c, deeds, record, _⟩ := sound.record_of_removed heard
      have work := others ticket List.mem_cons_self
      rw [launching.stops ticket (mem_countedTickets_of_about record)] at work
      cases work
  · rw [sound.accounted.pending_eq, weigh, putters_of_no_calls sound.linked calls, items, left]
    exact Nat.mul_zero p.workers.length

/-- A pool cannot be built because a worker cannot be started: the builder returns the error that
names this worker, and by then those before it were told to leave and joined, whatever the order of
their steps. -/
theorem Launch.abandons : Abandons size outcome k (fault.error k) events p := by
  have sound := launch.run.sound
  have launching := launch.launching few fails fine
  have torn := launch.run.torn
  have gone : ∀ ending, .ended builder ending ∈ events → p.call? builder = none := by
    intro ending member
    have ended : ending ∈ endings events := List.mem_filterMap.mpr ⟨_, member, rfl⟩
    exact launching.point.gone_of_ended (List.ne_nil_of_mem ended)
  have down : tearDowns events = 0 := by
    refine Nat.eq_zero_of_not_pos fun some => ?_
    cases launching.stage.symm.trans (torn.stage some)
  refine ⟨launching.stage, ⟨?_, fun w member => ?_, ?_⟩, launching.unbegun, fun inside => ?_,
    fun n q paces => ?_, fun ending member => ?_⟩
  · have counted := torn.counted
    omega
  · exact List.countP_eq_zero.mp down _ member rfl
  · have executed := sound.balanced.executed
    have most : p.workerSum leaveWeight ≤ p.workers.length := workerSum_le leaveWeight_le_one
    have started := launching.point.started_le
    omega
  · refine launch.moves few fails fine fun none => ?_
    obtain ⟨before, split⟩ := launching.last none
    exact inside _ (split ▸ List.mem_append_right before List.mem_cons_self)
  · have left := (launch.of_paces few fails fine paces).2
    omega
  · have givenUp := launch.givenUp few fails fine (gone ending member)
    have ended : ending ∈ endings events := List.mem_filterMap.mpr ⟨_, member, rfl⟩
    rw [givenUp.last.1] at ended
    exact ⟨List.mem_singleton.mp ended, givenUp⟩

end Ends

instance : DecidableEq (Except WorkerError Unit)
  | .ok (), .ok () => .isTrue rfl
  | .ok (), .error _ => .isFalse nofun
  | .error _, .ok () => .isFalse nofun
  | .error e, .error e' => decidable_of_iff (e = e') ⟨congrArg _, Except.error.inj⟩

def starting? : CallPhase κ → Option Nat
  | .starting next => some next
  | _ => none

theorem starting?_eq_some {phase : CallPhase κ} {next : Nat} :
    starting? phase = some next ↔ phase = .starting next := by
  cases phase <;> simp [starting?]

instance (outcome : Nat → Except StartFault Unit) (p : Pool κ) (move : Move κ) :
    Decidable (Grants outcome p move) :=
  match move with
  | .start c reply =>
    decidable_of_iff (∀ next ∈ (p.call? c).bind starting?,
        reply = (outcome next).mapError (StartFault.error next)) <| by
      simp [Grants, Option.bind_eq_some_iff, starting?_eq_some]
  | .begin .. | .caller .. | .worker _ | .pushed .. | .notified .. | .rouse _ => .isTrue trivial

/-- Makes the moves one after the other, as long as workers are started as the outcomes say. -/
def launch (outcome : Nat → Except StartFault Unit) (p : Pool κ) : List (Move κ) → Option (Change κ)
  | [] => some (p, [])
  | move :: moves =>
    if Grants outcome p move then
      match p.step? move with
      | none => none
      | some (q, events) => (q.launch outcome moves).map fun (r, more) => (r, events ++ more)
    else none

theorem Launch.of_launch {moves : List (Move κ)} (before : Launch size outcome events p)
    (goes : p.launch outcome moves = some (q, more)) : Launch size outcome (events ++ more) q := by
  induction moves generalizing p events more with
  | nil =>
    cases goes
    rwa [List.append_nil]
  | cons move moves ih =>
    unfold launch at goes
    split at goes
    · next grants =>
      split at goes
      · cases goes
      · next mid heard made =>
        obtain ⟨⟨last, rest⟩, goesOn, same⟩ := Option.map_eq_some_iff.mp goes
        cases same
        rw [← List.append_assoc]
        exact ih (before.next grants made) goesOn
    · cases goes

def threeWorkers : PoolSize :=
  ⟨3, 1, Nat.succ_pos 2, Nat.one_pos⟩

/-- There are threads for two workers. -/
def twoThreads (worker : Nat) : Except StartFault Unit :=
  if worker < 2 then .ok () else .error (.notSpawned "no threads")

/-- The first worker sleeps when its termination comes. The second one takes that, and has left
before there is room for the other one. -/
def twoLeave : List (Move Nat) :=
  [.start 0 (.ok ()), .start 0 (.ok ()), .worker 0, .start 0 (.error (.notSpawned 2 "no threads")),
    .caller 0 none, .caller 0 (some (.worker 0)), .caller 0 none, .caller 0 none, .worker 1,
    .worker 1, .worker 1, .worker 1, .worker 1, .worker 1, .caller 0 none, .worker 0, .worker 0,
    .worker 0, .worker 0, .worker 0, .worker 0, .worker 0, .worker 0, .caller 0 none,
    .caller 0 none, .caller 0 none]

theorem abandons_third : ∃ change : Change Nat,
    (Pool.new threeWorkers).launch twoThreads twoLeave = some change ∧
      .ended builder (.notStarted (.notSpawned 2 "no threads")) ∈ change.2 ∧
      Abandons threeWorkers twoThreads 2 (.notSpawned 2 "no threads") change.2 change.1 := by
  have played : ((Pool.new threeWorkers).launch twoThreads twoLeave).any (fun change =>
      decide (.ended builder (.notStarted (.notSpawned 2 "no threads")) ∈ change.2)) = true := by
    decide
  obtain ⟨change, goes, returned⟩ := (Option.any_eq_true _ _).mp played
  have launched : Launch threeWorkers twoThreads change.2 change.1 := Launch.of_launch .new goes
  have fails : twoThreads 2 = .error (.notSpawned "no threads") := rfl
  exact ⟨change, goes, of_decide_eq_true returned,
    launched.abandons (by decide) fails fun j less => if_pos less⟩

end Pool

end Spool
