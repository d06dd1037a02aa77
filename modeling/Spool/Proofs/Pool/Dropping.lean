import Spool.Proofs.Pool.Forward
import Spool.Proofs.Pool.Progress

/-!
Dropping a pool drains it. Whoever drops it is alone inside. It schedules the terminations unless a
call that ended the transaction has done so, joins every worker, and returns when all that was ever
submitted is done with.
-/

namespace Spool

variable {κ : Type}

namespace Pool

variable {p q : Pool κ} {events more : List (Event κ)} {c : Nat}

section Alone

/-- The pool is being dropped, and nobody but the caller that drops it is inside. -/
structure Alone (c : Nat) (p : Pool κ) : Prop where
  dropped : p.dropped = true
  calls : ∀ d phase, p.call? d = some phase → d = c ∧ phase.errand = .drop

theorem not_called_of_dropped (turn : p.Turn more q) (dropped : p.dropped = true) (d : Nat)
    (call : Call κ) : .called d call ∉ more := by
  intro member
  obtain ⟨first, rest, rfl⟩ := List.append_of_mem member
  obtain ⟨rfl, rfl⟩ := called_of_turn turn rfl
  rw [(called_cases turn).1] at dropped
  cases dropped

theorem alone_turn (alone : Alone c p) (turn : p.Turn more q) : Alone c q := by
  refine ⟨dropped_turn turn alone.dropped, fun d later there => ?_⟩
  rcases inside_turn turn there with ⟨call, rfl, _⟩ | ⟨phase, found, same, _⟩
  · exact absurd List.mem_cons_self (not_called_of_dropped turn alone.dropped d call)
  · rw [same]
    exact alone.calls d phase found

theorem alone_of_called (turn : p.Turn [.called c .drop] q) : Alone c q := by
  obtain ⟨_, ⟨other, _⟩ | ⟨_, _, rfl⟩⟩ := called_cases turn
  · exact absurd rfl other
  · refine ⟨rfl, fun d phase there => ?_⟩
    cases List.mem_singleton.mp (mem_of_call? there)
    exact ⟨rfl, rfl⟩

theorem Alone.empty (alone : Alone c p) (callers : (p.calls.map Prod.fst).Nodup)
    (gone : p.call? c = none) : p.calls = [] := by
  refine List.eq_nil_iff_forall_not_mem.mpr fun call member => ?_
  obtain ⟨d, phase⟩ := call
  have there : p.call? d = some phase := lookup_of_mem callers member
  rw [(alone.calls d phase there).1, gone] at there
  cases there

theorem gone_turn (gone : p.call? c = none) (turn : p.Turn more q)
    (none : ∀ call, .called c call ∉ more) : q.call? c = .none := by
  cases there : q.call? c with
  | none => rfl
  | some later =>
    rcases inside_turn turn there with ⟨call, rfl, _⟩ | ⟨phase, found, _⟩
    · exact absurd List.mem_cons_self (none call)
    · rw [gone] at found
      cases found

theorem Run.empty_after {before : List (Event κ)} (sound : Sound before p) (alone : Alone c p)
    (gone : p.call? c = none) (run : Run p events q) : q.calls = [] := by
  have stays : Alone c q ∧ q.call? c = none := by
    induction run with
    | start => exact ⟨alone, gone⟩
    | next goes made ih =>
      have turn := turn_of_step? made
      exact ⟨alone_turn ih.1 turn,
        gone_turn ih.2 turn (not_called_of_dropped turn ih.1.dropped c)⟩
  exact stays.1.empty (run.sound_after sound).staged.callers stays.2

theorem counting_of_turn {ticket : Ticket} (turn : p.Turn more q)
    (member : .counted c ticket ∈ more) :
    ∃ left goal, p.call? c = some (.counting ticket.job left goal) := by
  cases turn with
  | called | dropped => cases List.mem_singleton.mp member
  | dozed => cases member
  | caller there made =>
    cases made with
    | counted =>
      cases List.mem_singleton.mp member
      exact ⟨_, _, there⟩
    | _ => simp [not_heard] at member
  | @worker _ worker _ _ _ _ made =>
    generalize worker.phase = phase at made
    cases made <;> simp at member

theorem Run.alone_after {before : List (Event κ)} (sound : Sound before p) (alone : Alone c p)
    (run : Run p events q) : Alone c q ∧ (∀ d call, .called d call ∉ events) ∧
      ∀ d ticket, .counted d ticket ∈ events → d = c ∧ ticket.job.isTermination = true := by
  induction run with
  | start => exact ⟨alone, fun _ _ => List.not_mem_nil, fun _ _ member => by cases member⟩
  | next goes made ih =>
    obtain ⟨still, silent, stops⟩ := ih
    have turn := turn_of_step? made
    refine ⟨alone_turn still turn, fun d call member => ?_, fun d ticket member => ?_⟩
    · exact (List.mem_append.mp member).elim (silent d call)
        (not_called_of_dropped turn still.dropped d call)
    · rcases List.mem_append.mp member with old | new
      · exact stops d ticket old
      · obtain ⟨left, goal, there⟩ := counting_of_turn turn new
        obtain ⟨same, errand⟩ := still.calls d _ there
        refine ⟨same, ?_⟩
        have kind := ((goes.sound_after sound).proper.calls d _ there).2.1
        rw [kind]
        cases goal <;> first | rfl | cases errand

end Alone

section Joining

theorem exited_turn {w : Nat} (there : p.phase? w = some .exited) (turn : p.Turn more q) :
    q.phase? w = some .exited := by
  cases turn with
  | called | dropped | dozed => exact there
  | @caller _ _ _ r _ _ made =>
    simp only [phase?, worker?, goOn_workers]
    rcases workers_of_callerTurn made with same | ⟨_, same⟩
    · rw [same]
      exact there
    · rw [same, phase?_started, if_neg, there]
      rintro rfl
      simp [phase?, worker?] at there
  | @worker v worker new _ _ found made =>
    rw [phase?_worker found made]
    split
    · next same =>
      subst same
      rw [phase?_of_worker? found] at there
      rw [Option.some.inj there] at made
      cases made
    · exact there

theorem Run.exited_after {w : Nat} (there : p.phase? w = some .exited) (run : Run p events q) :
    q.phase? w = some .exited := by
  induction run with
  | start => exact there
  | next _ made ih => exact exited_turn ih (turn_of_step? made)

theorem first_of_next {goal other : Goal} {left next : Nat}
    (known : goal.next (κ := κ) left = some (.joining next other)) : next = 0 := by
  cases left with
  | zero => cases goal <;> cases known <;> rfl
  | succ left => cases known

/-- Workers are joined in the order of their numbers. -/
def Joined (p : Pool κ) : Prop :=
  ∀ c next goal, p.call? c = some (.joining next goal) → ∀ w, w < next → p.phase? w = some .exited

theorem joined_turn (joined : p.Joined) (turn : p.Turn more q) : q.Joined := by
  intro c next goal there w less
  have stays : p.phase? w = some .exited → q.phase? w = some .exited := fun exited =>
    exited_turn exited turn
  have kept : p.call? c = some (.joining next goal) → q.phase? w = some .exited := fun found =>
    stays (joined c next goal found w less)
  cases turn with
  | @called d call _ _ free =>
    rw [call?_called p _ free] at there
    split at there
    · cases call <;> cases there
    · exact kept there
  | dropped => cases List.mem_singleton.mp (mem_of_call? there)
  | @caller d phase later r _ found made =>
    rw [call?_caller found made] at there
    split at there
    · cases made with
      | abandoned | put | closed =>
        rw [first_of_next there] at less
        cases less
      | dropping =>
        cases there
        cases less
      | joined here exited =>
        cases there
        rcases Nat.lt_succ_iff_lt_or_eq.mp less with before | rfl
        · exact stays (joined d _ _ found w before)
        · exact stays (exited ▸ phase?_of_worker? here)
      | _ => cases there
    · exact kept there
  | worker found made =>
    rcases call?_worker made c with same | woken
    · exact kept (same ▸ there)
    · rw [woken] at there
      obtain ⟨old, known, same⟩ := Option.map_eq_some_iff.mp there
      cases old <;> first | (cases same; done) | exact kept (known.trans (congrArg some same))
  | dozed => exact kept there

theorem Run.joined {size : PoolSize} (run : Run (.new size) events p) : p.Joined := by
  refine run.induct_sound (motive := fun _ p => p.Joined) ?_ fun _ joined turn =>
    joined_turn joined turn
  intro c next goal there
  cases List.mem_singleton.mp (mem_of_call? there)

theorem Run.exited_of_dropped {size : PoolSize} (run : Run (.new size) events p)
    {phase : CallPhase κ} (there : p.call? c = some phase) (drops : phase.errand = .drop)
    (turn : CallerTurn p c phase none q more) :
    more = [.ended c .returned] ∧ q = p ∧
      ∀ w, w < p.workers.length → p.phase? w = some .exited := by
  generalize gone : (none : Option (CallPhase κ)) = next at turn
  cases turn with
  | @allJoined next goal all =>
    obtain rfl : goal = .drop := by cases goal <;> first | rfl | cases drops
    refine ⟨rfl, rfl, fun w inside => run.joined c next _ there w ?_⟩
    exact Nat.lt_of_lt_of_le inside (List.getElem?_eq_none_iff.mp all)
  | late _ other =>
    exact absurd (by cases ‹Goal› <;> first | rfl | cases drops) other
  | @abandoned _ error => cases drops
  | @put left goal =>
    obtain rfl : goal = .drop := by cases goal <;> first | rfl | cases drops
    cases left <;> cases gone
  | @closed goal =>
    obtain rfl : goal = .drop := by cases goal <;> first | rfl | cases drops
    obtain ⟨workers, pos⟩ := Nat.exists_eq_add_one.mpr p.size.workers_pos
    rw [pos] at gone
    cases gone
  | built | refused | drained | taken | registered | cleared | switched => cases drops
  | _ => cases gone

end Joining

section Scheduled

def scheduledStops (events : List (Event κ)) : Nat :=
  (countedTickets events).countP fun ticket => ticket.job.isTermination

theorem putters_of_no_calls (linked : p.Linked) (calls : p.calls = []) :
    p.queue.putters = [] := by
  refine List.eq_nil_iff_forall_not_mem.mpr fun putter member => ?_
  obtain ⟨c, _, _, _, there⟩ :=
    (linked.putters putter.thread).mp (List.mem_map.mpr ⟨putter, member, rfl⟩)
  have impossible := mem_of_call? there
  rw [calls] at impossible
  cases impossible

theorem Run.scheduledStops_eq {size : PoolSize} (run : Run (.new size) events p)
    (calls : p.calls = []) :
    scheduledStops events = if p.isEnding then p.workers.length else 0 := by
  have sound := run.sound
  have counted := run.counted_eq Ticket.stops
  have load := sound.balanced.load
  rw [putters_of_no_calls sound.linked calls, sound.accounted.order, tally_append,
    run.removed.stopped, tally_nil, tally_stops] at counted
  simp only [terminationLoad, callSum, calls, tally_nil] at load
  simp only [scheduledStops]
  omega

theorem Run.isClosed_iff {size : PoolSize} (run : Run (.new size) events p)
    (calls : p.calls = []) (kept : p.dropped = false) : p.lifecycle.isClosed = true ↔
      ∃ first d middle last, Returned events first d .endTransaction middle last := by
  constructor
  · intro shut
    obtain ⟨first, d, middle, last, split, inside⟩ := run.closer shut kept
    obtain ⟨during, ending, after, same, past⟩ :=
      run.ended_of_gone split (by rw [call?, calls]; rfl)
    have closed : .closed d ∈ during := by
      rcases split_append same with ⟨rest, rfl, _⟩ | ⟨gap, rfl, tail⟩
      · exact absurd (List.mem_append_right _ List.mem_cons_self) (inside ending)
      · cases gap with
        | nil => cases tail
        | cons event gap =>
          cases tail
          exact List.mem_append_right _ List.mem_cons_self
    rcases run.closing_cases past with ⟨rfl, _⟩ | ⟨_, _, _, _, _, none⟩
    · exact ⟨first, d, during, after, past.split, past.inside⟩
    · exact absurd closed none
  · rintro ⟨first, d, middle, last, returned⟩
    have closed := (run.decided returned.ended).1
    rw [run.closings_eq] at closed
    cases shut : p.lifecycle.isClosed with
    | true => rfl
    | false => rw [shut] at closed; cases closed

/-- Every submission is over before a call begins that is to end the transaction. -/
def EndedLast (events : List (Event κ)) : Prop :=
  ∀ before c after, events = before ++ .called c .endTransaction :: after →
    submitting before = [] ∧ ∀ d submission, .called d (.submit submission) ∉ after

theorem SubmissionsFirst.endedLast (orderly : SubmissionsFirst events) : EndedLast events :=
  fun _ _ _ split => orderly _ _ _ _ split rfl

/-- What dropping leaves behind. -/
structure Emptied (size : PoolSize) (events : List (Event κ)) (p : Pool κ) : Prop where
  stage : p.lifecycle = .tornDown
  exited : ∀ w, w < size.workers → p.phase? w = some .exited
  queue : p.queue.items = [] ∧ p.queue.putters = []
  /-- There was a termination for each worker, and each was executed. -/
  stops : scheduledStops events = size.workers ∧ p.terminationsExecuted = size.workers
  /-- No submission was refused. -/
  returned : ∀ before d submission rest, events = before ++ .called d (.submit submission) :: rest →
    ∃ during after, Returned events before d (.submit submission) during after
  /-- The job of each was executed and told of, once. -/
  done : AllDone events p
  /-- Whom a worker told of a job was the callback in place. -/
  found : ∀ before w ticket found after, events = before ++ .looked w ticket found :: after →
    found = registration before

/-- What dropping does, whenever it begins: `before` is what was heard by then, `during` what was
heard since. -/
structure Drops (size : PoolSize) (before : List (Event κ)) (c : Nat) (during : List (Event κ))
    (p : Pool κ) : Prop where
  /-- After the transaction was ended no more terminations are scheduled. -/
  ended : (∃ first d middle last, Returned before first d .endTransaction middle last) →
    scheduledStops before = size.workers ∧ scheduledStops during = 0
  /-- Otherwise there are none yet. -/
  unended : (¬ ∃ first d middle last, Returned before first d .endTransaction middle last) →
    scheduledStops before = 0 ∧ scheduledStops during ≤ size.workers
  /-- They are scheduled by the caller that drops the pool, which schedules nothing else. -/
  own : ∀ d ticket, .counted d ticket ∈ during → d = c ∧ ticket.job.isTermination = true
  /-- Until it returns, some thread can move. -/
  moves : (∀ ending, .ended c ending ∉ during) → ∃ thread, p.CanMove thread
  returns : ∀ inner ending after, during = inner ++ .ended c ending :: after →
    (∀ other, .ended c other ∉ inner) → ending = .returned ∧
      scheduledStops before + scheduledStops during = size.workers ∧
        Emptied size (before ++ .called c .drop :: during) p

theorem scheduledStops_drop (before during : List (Event κ)) :
    scheduledStops (before ++ .called c .drop :: during) =
      scheduledStops before + scheduledStops during := by
  simp [scheduledStops, Event.counted?]

theorem Run.submissionsFirst {size : PoolSize} (run : Run (.new size) events p)
    (orderly : EndedLast events) : SubmissionsFirst events := by
  intro before d call after split closes
  cases call with
  | endTransaction => exact orderly before d after split
  | drop =>
    obtain ⟨mid, next, begins, turn, goes⟩ := run.split split
    obtain ⟨_, ⟨other, _⟩ | ⟨_, empty, _⟩⟩ := called_cases turn
    · exact absurd rfl other
    · have silent := (goes.alone_after (sound_turn begins.sound turn) (alone_of_called turn)).2.1
      refine ⟨List.eq_nil_iff_forall_not_mem.mpr fun e listed => ?_, fun e submission =>
        silent e (.submit submission)⟩
      obtain ⟨phase, there, _⟩ := (begins.enrolled e).mp listed
      rw [call?, empty] at there
      cases there
  | _ => cases closes

theorem Run.length_workers {size : PoolSize} (run : Run (.new size) events p)
    (built : p.lifecycle ≠ .uninitialized) : p.workers.length = size.workers := by
  rw [(run.sound.staged.running built).workers, run.size_eq]
  rfl

theorem Run.emptied {size : PoolSize} (run : Run (.new size) events p)
    (orderly : SubmissionsFirst events) (built : p.lifecycle ≠ .uninitialized)
    (calls : p.calls = []) (exited : ∀ w, w < size.workers → p.phase? w = some .exited) :
    Emptied size events p := by
  have sound := run.sound
  obtain ⟨executed, _, _, down⟩ := run.torn_of_exited built exited
  have all := run.length_workers built
  -- nothing is pending: no caller puts, the queue is empty, and who has exited holds nothing
  have left : ∀ f : WorkerPhase → Nat, p.workerSum f = p.workers.length * f .exited :=
    workerSum_of_exited fun w inside => exited w (all ▸ inside)
  have putters := putters_of_no_calls sound.linked calls
  have items := run.empty_of_stopped orderly ((left stopWeight).trans (Nat.mul_one _))
  have pending : p.pending = 0 := by
    rw [sound.accounted.pending_eq, weigh, putters, items, left]
    exact Nat.mul_zero p.workers.length
  have ending : p.isEnding = true := by
    simp only [isEnding, down, calls]
    rfl
  refine ⟨down, exited, ⟨items, putters⟩, ⟨?_, executed⟩, ?_, run.allDone pending, ?_⟩
  · rw [run.scheduledStops_eq calls, ending, all]
    rfl
  · intro before d submission rest split
    obtain ⟨during, ending, after, _, past⟩ :=
      run.ended_of_gone split (by rw [call?, calls]; rfl)
    exact ⟨during, after, run.returned_of_orderly orderly past⟩
  · exact fun _ _ _ _ _ split => run.found_eq split

/-- Between two calls there is a termination for each worker, or none, by whether a call that was to
end the transaction returned. -/
theorem Run.stops_between {size : PoolSize} (run : Run (.new size) events p)
    (built : p.lifecycle ≠ .uninitialized) (calls : p.calls = []) (kept : p.dropped = false) :
    ((∃ first d middle last, Returned events first d .endTransaction middle last) →
      scheduledStops events = size.workers) ∧
    ((¬ ∃ first d middle last, Returned events first d .endTransaction middle last) →
      scheduledStops events = 0) := by
  have workers := run.length_workers built
  have ending : p.isEnding = p.lifecycle.isClosed := by
    simp only [isEnding, calls, List.all_nil, Bool.and_true]
    cases stage : p.lifecycle <;> first | rfl | exact absurd stage built
  rw [← run.isClosed_iff calls kept, run.scheduledStops_eq calls, ending, workers]
  exact ⟨fun shut => if_pos shut, fun accepts => if_neg accepts⟩

theorem Run.emptied_of_ended {size : PoolSize} {before inner after : List (Event κ)}
    {ending : Ending} (run : Run (.new size) events p) (orderly : SubmissionsFirst events)
    (past : Ended events before c .drop ending inner after) :
    ending = .returned ∧ Emptied size events p := by
  obtain ⟨_, next, last, q, through, first, rest, later, passage, rfl, rfl⟩ :=
    run.passage_of_ended past
  have sound := sound_turn passage.begins.sound passage.called
  have alone := (passage.goes.alone_after sound (alone_of_called passage.called)).1
  have built := passage.goes.begun_after fun early =>
    begun_of_called passage.called (uninitialized_of_turn passage.called early).1
  obtain ⟨phase, r, there, turn, rfl⟩ := passage.ends
  obtain ⟨heard, rfl, exited⟩ :=
    passage.whole.exited_of_dropped there (alone.calls c phase there).2 turn
  have workers := passage.whole.length_workers built
  obtain ⟨rfl, rfl⟩ : ending = .returned ∧ first = [] := by
    cases first with
    | nil =>
      cases heard
      exact ⟨rfl, rfl⟩
    | cons event first => simp at heard
  have step : r.Turn _ (r.endCall c) := .caller there turn
  have gone : (r.endCall c).call? c = none := by rw [call?_endCall, if_pos rfl]
  have begun : (r.endCall c).lifecycle ≠ .uninitialized := built
  refine ⟨rfl, run.emptied orderly (passage.later.begun_after begun)
    (passage.later.empty_after (sound_turn passage.whole.sound step) (alone_turn alone step) gone)
    fun w inside => passage.later.exited_after ?_⟩
  exact exited w (workers ▸ inside)

theorem Run.drops {size : PoolSize} {before during : List (Event κ)}
    (run : Run (.new size) events p) (orderly : EndedLast events)
    (split : events = before ++ .called c .drop :: during) : Drops size before c during p := by
  have orderly := run.submissionsFirst orderly
  obtain ⟨mid, next, begins, turn, goes⟩ := run.split split
  obtain ⟨kept, ⟨other, _⟩ | ⟨_, empty, _⟩⟩ := called_cases turn
  · exact absurd rfl other
  have sound := sound_turn begins.sound turn
  have built := begun_of_called turn
  have begun := goes.begun_after (by rw [(frame_of_called turn).2.1]; exact built)
  obtain ⟨closed, unclosed⟩ := begins.stops_between built empty kept
  have both := scheduledStops_drop (c := c) before during
  have most : scheduledStops events ≤ size.workers := by
    have workers := workers_le run.sound.staged
    rw [run.size_eq] at workers
    have scheduled := run.scheduled_le
    rw [tally_stops] at scheduled
    refine Nat.le_trans ?_ workers
    simp only [scheduledStops]
    split at scheduled <;> omega
  rw [← split] at both
  refine ⟨fun returned => ?_, fun none => ?_,
    (goes.alone_after sound (alone_of_called turn)).2.2, fun inside => ?_, ?_⟩
  · have all := closed returned
    omega
  · have few := unclosed none
    omega
  · refine run.exists_canMove orderly fun calls => ?_
    obtain ⟨_, there, _⟩ := goes.through (motive := fun _ _ _ => True) sound
      (call?_of_called turn) trivial (fun _ _ _ _ _ => trivial) (fun _ _ _ _ => trivial) inside
    rw [call?, calls] at there
    cases there
  · rintro inner ending after rfl inside
    obtain ⟨returned, emptied⟩ := run.emptied_of_ended orderly ⟨split, inside⟩
    exact ⟨returned, both.symm.trans emptied.stops.1, split ▸ emptied⟩

end Scheduled

/-- Two workers, and room for one job. -/
def narrow : PoolSize := ⟨2, 1, Nat.two_pos, Nat.one_pos⟩

/-- A job whose store and whose callback both give up. The pool is dropped before a worker has
fetched it, and the first termination has to wait for room. -/
def droppedInTime : List (Move Nat) :=
  [.start 0 (.ok ()), .start 0 (.ok ()), .caller 0 none, .begin 0 (.setCallback 7), .caller 0 none,
    .begin 0 (.submit (.transfer "in" "out")), .caller 0 none, .caller 0 none, .caller 0 none,
    .caller 0 none, .begin 1 .drop, .caller 1 none, .caller 1 none, .caller 1 none, .worker 0,
    .pushed 0 (.gaveUp "store"), .worker 0, .worker 0, .worker 0, .worker 0, .worker 0,
    .notified 0 (.gaveUp "callback"), .worker 0, .worker 0, .caller 1 (some (.worker 0)),
    .worker 0, .worker 0, .worker 0, .worker 0, .worker 0, .worker 0, .worker 0, .worker 0,
    .caller 1 none, .caller 1 none, .caller 1 none, .worker 1, .worker 1, .worker 1, .worker 1,
    .worker 1, .worker 1, .worker 1, .worker 1, .worker 1, .worker 1, .caller 1 none,
    .caller 1 none]

theorem drops_of_droppedInTime : ∃ (change : Change Nat) (before during : List (Event Nat)),
    (Pool.new narrow).follow droppedInTime = some change ∧ EndedLast change.2 ∧
      change.2 = before ++ .called 1 .drop :: during ∧ .ended 1 .returned ∈ during ∧
        Drops narrow before 1 during change.1 := by
  have played : ((Pool.new narrow).follow droppedInTime).any (fun change =>
      decide (SubmissionsFirst change.2 ∧
        change.2 = change.2.take 12 ++ .called 1 .drop :: change.2.drop 13 ∧
          .ended 1 .returned ∈ change.2.drop 13)) = true := by
    decide
  obtain ⟨change, follows, holds⟩ := (Option.any_eq_true _ _).mp played
  obtain ⟨orderly, split, returned⟩ := of_decide_eq_true holds
  exact ⟨change, _, _, follows, orderly.endedLast, split, returned,
    (Run.of_follow .start follows).drops orderly.endedLast split⟩

end Pool

end Spool
