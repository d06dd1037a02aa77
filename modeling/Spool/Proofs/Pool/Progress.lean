import Spool.Proofs.Pool.Handling
import Spool.Proofs.Pool.Submissions

/-!
A pool whose submissions are over before its transaction is closed never gets stuck: while a call
has not returned, some thread has a next step. Nobody sleeps for nothing either: not in a put that
no worker will make room for, not in a get while jobs wait that nobody comes for, not until a drain
that nobody will announce. What blocks a thread is traced to somebody else who can go on.
-/

namespace Spool

variable {κ : Type}

namespace Pool

variable {p : Pool κ} {events : List (Event κ)}

/-- The thread has a next step, whatever the answers that it does not give itself. To be woken
without reason is no step. -/
def CanMove (p : Pool κ) : Thread → Prop
  | .caller c =>
    (∃ woken, (p.callerStep? c woken).isSome = true) ∨
      ∀ reply, (p.startReply? c reply).isSome = true
  | .worker w =>
    (p.workerStep? w).isSome = true ∨ (∀ outcome, (p.pushed? w outcome).isSome = true) ∨
      ∀ answer, (p.notified? w answer).isSome = true

/-- The worker is inside the queue's get. -/
def Fetches (p : Pool κ) (w : Nat) (phase : Phase) : Prop :=
  p.phase? w = some .fetching ∧
    ∃ getter, p.queue.getter? (.worker w) = some getter ∧ getter.phase = phase

/-- Why a worker has to wait. -/
inductive Waits (p : Pool κ) (w : Nat) : WorkerPhase → Prop
  | exited : Waits p w .exited
  | asleep : p.Fetches w .asleep → Waits p w .fetching
  | locked {ticket : Ticket} : p.drainLock ≠ none → Waits p w (.lastOut ticket)

theorem canMove_worker (linked : p.Linked) {w : Nat} {phase : WorkerPhase}
    (there : p.phase? w = some phase) : p.CanMove (.worker w) ∨ p.Waits w phase := by
  obtain ⟨worker, found, rfl⟩ := worker?_of_phase? there
  cases now : worker.phase with
  | fetching =>
    rw [now] at there
    obtain ⟨getter, member, thread⟩ :=
      List.mem_map.mp ((linked.getters (.worker w)).mpr ⟨w, rfl, there⟩)
    have known := thread ▸ Queue.getter?_of_mem linked.distinct member
    by_cases asleep : getter.phase = .asleep
    · exact .inr (.asleep ⟨there, getter, known, asleep⟩)
    · refine .inl (.inl ?_)
      have turn := Queue.isSome_getTurn? known asleep
      obtain ⟨⟨queue, got⟩, made⟩ := Option.isSome_iff_exists.mp turn
      simp only [workerStep?, found, now, fetch?, made]
      cases got with
      | none => rfl
      | some ticket =>
        dsimp only
        split <;> rfl
  | pushing ticket => exact .inl (.inr (.inl fun outcome => by simp only [pushed?, found, now]; rfl))
  | notifying ticket =>
    exact .inl (.inr (.inr fun answer => by simp only [notified?, found, now]; rfl))
  | lastOut ticket =>
    cases lock : p.drainLock with
    | none => exact .inl (.inl (by simp [workerStep?, found, now, lock]))
    | some thread => exact .inr (.locked (by rw [lock]; exact Option.some_ne_none thread))
  | exited => exact .inr .exited
  | releasing ticket =>
    refine .inl (.inl ?_)
    simp only [workerStep?, found, now]
    split <;> rfl
  | _ => exact .inl (.inl (by simp only [workerStep?, found, now]; rfl))

/-- Why a caller has to wait. -/
inductive Blocked (p : Pool κ) : CallPhase κ → Prop
  | full {more : Nat} {goal : Goal} {putter : Putter Thread Ticket} :
      putter ∈ p.queue.putters → putter.phase = .asleep → Blocked p (.putting more goal)
  | asleep : Blocked p .asleep
  | locked : p.drainLock ≠ none → Blocked p .locking
  | joining {next : Nat} {goal : Goal} {phase : WorkerPhase} : p.phase? next = some phase →
      phase ≠ .exited → Blocked p (.joining next goal)
  | registering {callback : κ} : p.isNotifying = true → Blocked p (.registering callback)
  | clearing : p.isNotifying = true → Blocked p .clearing

theorem canMove_caller (sound : Sound events p) {c : Nat} {phase : CallPhase κ}
    (there : p.call? c = some phase) : p.CanMove (.caller c) ∨ p.Blocked phase := by
  cases phase with
  | starting next =>
    have few : next ≤ p.size.workers := by
      have building := sound.staged.building there
      cases (building.eq_starting there).2
      exact building.workers
    refine .inl ?_
    rcases Nat.lt_or_eq_of_le few with more | all
    · refine .inr fun reply => ?_
      simp only [startReply?, there, more, if_true]
      cases reply <;> rfl
    · exact .inl ⟨none, by simp [callerStep?, there, all]⟩
  | putting more goal =>
    obtain ⟨putter, member, thread⟩ :=
      List.mem_map.mp ((sound.linked.putters (.caller c)).mpr ⟨c, more, goal, rfl, there⟩)
    have known := thread ▸ Queue.putter?_of_mem sound.linked.distinct member
    by_cases asleep : putter.phase = .asleep
    · exact .inr (.full member asleep)
    · obtain ⟨woken, turn⟩ := Queue.exists_putTurn? known asleep
      obtain ⟨⟨queue, back⟩, made⟩ := Option.isSome_iff_exists.mp turn
      refine .inl (.inl ⟨woken, ?_⟩)
      simp only [callerStep?, there, put?, known, made]
      cases back <;> rfl
  | joining next goal =>
    cases found : p.worker? next with
    | none =>
      refine .inl (.inl ⟨none, ?_⟩)
      cases goal <;> simp [callerStep?, there, join?, found]
    | some worker =>
      by_cases exited : worker.phase = .exited
      · exact .inl (.inl ⟨none, by simp [callerStep?, there, join?, found, exited]⟩)
      · exact .inr (.joining (phase?_of_worker? found) exited)
  | locking =>
    cases lock : p.drainLock with
    | none => exact .inl (.inl ⟨none, by simp [callerStep?, there, lock]⟩)
    | some thread => exact .inr (.locked (by rw [lock]; exact Option.some_ne_none thread))
  | asleep => exact .inr .asleep
  | registering callback =>
    cases busy : p.isNotifying with
    | true => exact .inr (.registering busy)
    | false =>
      refine .inl (.inl ⟨none, ?_⟩)
      simp only [callerStep?, there, busy, Option.isSome_none, Bool.false_eq_true, if_false]
      split <;> rfl
  | clearing =>
    cases busy : p.isNotifying with
    | true => exact .inr (.clearing busy)
    | false => exact .inl (.inl ⟨none, by simp [callerStep?, there, busy]⟩)
  | checking =>
    refine .inl (.inl ⟨none, ?_⟩)
    simp only [callerStep?, there, Option.isSome_none, Bool.false_eq_true, if_false]
    split <;> rfl
  | _ => exact .inl (.inl ⟨none, by simp [callerStep?, there]⟩)

theorem canMove_of_lock (sound : Sound events p) {thread : Thread}
    (lock : p.drainLock = some thread) : p.CanMove thread := by
  have guards := (sound.guarded.holder thread).mp lock
  cases thread with
  | worker w =>
    obtain ⟨phase, there, waking⟩ := (Option.any_eq_true _ _).mp guards
    rcases canMove_worker sound.linked there with moves | waits
    · exact moves
    · cases waits <;> cases waking
  | caller c =>
    obtain ⟨phase, there, guarding⟩ := (Option.any_eq_true _ _).mp guards
    rcases canMove_caller sound there with moves | blocked
    · exact moves
    · cases blocked <;> cases guarding

/-- Every worker has exited or sleeps in the queue's get. -/
def Idle (p : Pool κ) : Prop :=
  ∀ w phase, p.phase? w = some phase → phase = .exited ∨ phase = .fetching ∧ p.Fetches w .asleep

theorem idle_of_stuck (linked : p.Linked) (stuck : ∀ w, ¬ p.CanMove (.worker w))
    (free : p.drainLock = none) : p.Idle := by
  intro w phase there
  rcases canMove_worker linked there with moves | waits
  · exact absurd moves (stuck w)
  · cases waits with
    | exited => exact .inl rfl
    | asleep sleeps => exact .inr ⟨rfl, sleeps⟩
    | locked held => exact absurd free held

namespace Idle

variable (idle : p.Idle)

include idle

theorem not_notifying : p.isNotifying = false := by
  refine List.any_eq_false.mpr fun worker member busy => ?_
  obtain ⟨w, found⟩ := List.getElem?_of_mem member
  rcases idle w _ (phase?_of_worker? found) with exited | ⟨fetching, _⟩
  · rw [exited] at busy
    cases busy
  · rw [fetching] at busy
    cases busy

theorem not_announcing (w : Nat) : (p.phase? w).any WorkerPhase.isAnnouncing = false := by
  refine (Option.any_eq_false _ _).mpr fun phase there => ?_
  rcases idle w phase there with rfl | ⟨rfl, _⟩ <;> rfl

theorem held_eq_zero (f : Ticket → Nat) : p.workerSum (heldWeight f) = 0 := by
  refine tally_eq_zero _ fun worker member => ?_
  obtain ⟨w, found⟩ := List.getElem?_of_mem member
  rcases idle w _ (phase?_of_worker? found) with exited | ⟨fetching, _⟩
  · rw [exited]
    rfl
  · rw [fetching]
    rfl

end Idle

theorem exists_notified_worker (linked : p.Linked) (items : p.queue.items ≠ []) {w : Nat}
    (dozing : p.Fetches w .asleep) : ∃ v, p.Fetches v .notified := by
  obtain ⟨_, getter, known, asleep⟩ := dozing
  obtain ⟨member, _⟩ := Queue.mem_of_getter? known
  obtain ⟨other, there, notified⟩ :=
    Queue.exists_notified linked.wakeful items member asleep
  obtain ⟨v, thread, fetching⟩ :=
    (linked.getters other.thread).mp (List.mem_map.mpr ⟨other, there, rfl⟩)
  exact ⟨v, fetching, other, thread ▸ Queue.getter?_of_mem linked.distinct there, notified⟩

theorem Fetches.unique {w : Nat} {a b : Phase} (one : p.Fetches w a) (other : p.Fetches w b) :
    a = b := by
  obtain ⟨_, _, first, rfl⟩ := one
  obtain ⟨_, _, second, rfl⟩ := other
  rw [Option.some.inj (first.symm.trans second)]

theorem Idle.all_exited (idle : p.Idle) (linked : p.Linked) (items : p.queue.items ≠ []) {w : Nat}
    {phase : WorkerPhase} (there : p.phase? w = some phase) : phase = .exited := by
  rcases idle w phase there with exited | ⟨_, dozing⟩
  · exact exited
  · obtain ⟨v, woken⟩ := exists_notified_worker linked items dozing
    rcases idle v _ woken.1 with impossible | ⟨_, sleeps⟩
    · cases impossible
    · cases woken.unique sleeps

theorem stopped_of_all (all : ∀ w phase, p.phase? w = some phase → phase.isStopped = true) :
    p.workerSum stopWeight = p.workers.length := by
  refine Nat.le_antisymm (workerSum_le stopWeight_le_one) ?_
  rw [← tally_one p.workers]
  refine tally_mono _ fun worker member => ?_
  obtain ⟨w, found⟩ := List.getElem?_of_mem member
  rw [stopWeight, all w _ (phase?_of_worker? found)]
  exact Nat.le_refl 1

theorem Run.empty_of_stopped {size : PoolSize} (run : Run (.new size) events p)
    (orderly : SubmissionsFirst events) (stopped : p.workerSum stopWeight = p.workers.length) :
    p.queue.items = [] := by
  have sound := run.sound
  refine Sorted.empty ?_ sound stopped
  by_cases early : p.lifecycle = .uninitialized
  · exact run.sorted_of_uninitialized early
  · refine run.sorted_of_orderly orderly ?_
    have some : 0 < p.workers.length :=
      (sound.staged.running early).workers ▸ p.size.workers_pos
    have load := sound.balanced.load
    cases ending : p.isEnding with
    | true => rfl
    | false =>
      simp only [ending, terminationLoad, stopped, Bool.false_eq_true, if_false] at load
      omega

theorem Run.empty_of_idle {size : PoolSize} (run : Run (.new size) events p)
    (orderly : SubmissionsFirst events) (idle : p.Idle) : p.queue.items = [] := by
  refine Classical.byContradiction fun items => ?_
  refine items (run.empty_of_stopped orderly (stopped_of_all fun w phase there => ?_))
  rw [idle.all_exited run.sound.linked items there]
  rfl

theorem Idle.exited_of_ending (idle : p.Idle) (sound : Sound events p)
    (empty : p.queue.items = []) (none : ∀ c phase, p.call? c = some phase → phase.toCome = 0)
    (ending : p.isEnding = true) {w : Nat} {phase : WorkerPhase} (there : p.phase? w = some phase) :
    phase = .exited := by
  have load := sound.balanced.load
  have due : p.callSum CallPhase.toCome = 0 :=
    tally_eq_zero _ fun call member =>
      none call.1 call.2 (lookup_of_mem sound.staged.callers member)
  simp only [terminationLoad, due, empty, tally_nil, Nat.zero_add, ending, if_true] at load
  have stopped := isStopped_of_all load there
  rcases idle w phase there with exited | ⟨rfl, _⟩
  · exact exited
  · cases stopped

theorem awake_of_empty (linked : p.Linked) (empty : p.queue.items = [])
    {putter : Putter Thread Ticket} (member : putter ∈ p.queue.putters) :
    putter.phase ≠ .asleep := by
  intro asleep
  have many := linked.wakeful.putters putter member asleep
  simp [empty, Queue.wakeThreshold] at many

theorem Run.exists_canMove {size : PoolSize} (run : Run (.new size) events p)
    (orderly : SubmissionsFirst events) (calls : p.calls ≠ []) : ∃ thread, p.CanMove thread := by
  refine Classical.byContradiction fun nobody => ?_
  have stuck : ∀ thread, ¬ p.CanMove thread := fun thread moves => nobody ⟨thread, moves⟩
  have sound := run.sound
  have free : p.drainLock = none :=
    Option.eq_none_iff_forall_ne_some.mpr fun thread lock =>
      stuck thread (canMove_of_lock sound lock)
  have idle := idle_of_stuck sound.linked (fun w => stuck (.worker w)) free
  have empty := run.empty_of_idle orderly idle
  have blocked : ∀ c phase, p.call? c = some phase → p.Blocked phase := fun c phase there =>
    (canMove_caller sound there).resolve_left (stuck (.caller c))
  have unput : p.queue.putters = [] := by
    refine List.eq_nil_iff_forall_not_mem.mpr fun putter member => ?_
    obtain ⟨c, more, goal, _, there⟩ :=
      (sound.linked.putters putter.thread).mp (List.mem_map.mpr ⟨putter, member, rfl⟩)
    cases blocked c _ there with
    | full known asleep => exact awake_of_empty sound.linked empty known asleep
  have unscheduled : ∀ c phase, p.call? c = some phase → phase.toCome = 0 := by
    intro c phase there
    cases blocked c phase there with
    | full known => rw [unput] at known; cases known
    | _ => rfl
  obtain ⟨⟨c, phase⟩, member⟩ := List.exists_mem_of_ne_nil p.calls calls
  have there : p.call? c = some phase := lookup_of_mem sound.staged.callers member
  cases blocked c phase there with
  | full known => rw [unput] at known; cases known
  | locked held => exact held free
  | registering busy | clearing busy =>
    rw [idle.not_notifying] at busy
    cases busy
  | asleep =>
    have pending := sound.accounted.pending_eq
    rw [weigh, unput, empty, idle.held_eq_zero] at pending
    rcases sound.guarded.waiters c (by rw [there]; rfl) with some | ⟨w, announcing⟩
    · rw [pending] at some
      cases some
    · rw [idle.not_announcing w] at announcing
      cases announcing
  | joining found running =>
    have ending := (sound.exclusive.joining c _ _ there).1
    exact running (idle.exited_of_ending sound empty unscheduled ending found)

/-- The worker comes back to the queue and is not asleep there. -/
def Serves (p : Pool κ) (w : Nat) : Prop :=
  ∃ phase, p.phase? w = some phase ∧ phase.isStopped = false ∧ ¬ p.Fetches w .asleep

theorem Run.exists_serves {size : PoolSize} (run : Run (.new size) events p)
    (orderly : SubmissionsFirst events) {putter : Putter Thread Ticket}
    (member : putter ∈ p.queue.putters) (asleep : putter.phase = .asleep) :
    ∃ w, p.Serves w := by
  have linked := run.sound.linked
  have items : p.queue.items ≠ [] := fun empty => awake_of_empty linked empty member asleep
  refine Classical.byContradiction fun nobody => ?_
  refine items (run.empty_of_stopped orderly (stopped_of_all fun w phase there => ?_))
  cases stopped : phase.isStopped with
  | true => rfl
  | false =>
    refine absurd ?_ nobody
    by_cases dozing : p.Fetches w .asleep
    · obtain ⟨v, woken⟩ := exists_notified_worker linked items dozing
      exact ⟨v, _, woken.1, rfl, fun sleeps => by cases woken.unique sleeps⟩
    · exact ⟨w, phase, there, stopped, dozing⟩

theorem lone_of_joining (sound : Sound events p) {c next : Nat} {goal : Goal}
    (there : p.call? c = some (.joining next goal)) {d : Nat} {phase : CallPhase κ}
    (found : p.call? d = some phase) : phase = .joining next goal := by
  have lone : p.calls.length ≤ 1 := by
    refine sound.exclusive.lone ?_
    rcases (sound.exclusive.joining c next goal there).2 with rfl | abandon
    · exact .inr (sound.exclusive.dropping c _ there rfl)
    · refine .inl ?_
      rcases sound.staged.stage with building | abandoned | running
      · exact building.stage
      · exact abandoned.stage
      · have kept : Goal.isAbandon goal = false := (running.calls c _ there).2
        rw [kept] at abandon
        cases abandon
  have first := mem_of_call? there
  have second := mem_of_call? found
  match known : p.calls with
  | [] => rw [known] at first; cases first
  | [call] =>
    rw [known] at first second
    have same := (List.mem_singleton.mp second).trans (List.mem_singleton.mp first).symm
    exact (Prod.mk.inj same).2
  | _ :: _ :: _ => rw [known] at lone; simp at lone

theorem Run.exists_worker_canMove {size : PoolSize} (run : Run (.new size) events p)
    (orderly : SubmissionsFirst events) {c next : Nat} {goal : Goal} {phase : WorkerPhase}
    (there : p.call? c = some (.joining next goal)) (found : p.phase? next = some phase)
    (running : phase ≠ .exited) : ∃ w, p.CanMove (.worker w) := by
  refine Classical.byContradiction fun nobody => ?_
  have sound := run.sound
  have stuck : ∀ w, ¬ p.CanMove (.worker w) := fun w moves => nobody ⟨w, moves⟩
  have free : p.drainLock = none := by
    refine Option.eq_none_iff_forall_ne_some.mpr fun thread lock => ?_
    cases thread with
    | worker w => exact stuck w (canMove_of_lock sound lock)
    | caller d =>
      obtain ⟨held, known, guarding⟩ :=
        (Option.any_eq_true _ _).mp ((sound.guarded.holder _).mp lock)
      rw [lone_of_joining sound there known] at guarding
      cases guarding
  have idle := idle_of_stuck sound.linked stuck free
  have empty := run.empty_of_idle orderly idle
  have ending := (sound.exclusive.joining c next goal there).1
  refine running (idle.exited_of_ending sound empty (fun d other known => ?_) ending found)
  rw [lone_of_joining sound there known]
  rfl

/-- Nobody is stuck, and whoever sleeps has somebody who will wake it. -/
structure Live (p : Pool κ) : Prop where
  moves : p.calls ≠ [] → ∃ thread, p.CanMove thread
  puts : ∀ putter ∈ p.queue.putters, putter.phase = .asleep → ∃ w, p.Serves w
  gets : ∀ w, p.Fetches w .asleep → p.queue.items ≠ [] → ∃ v, p.Fetches v .notified
  drains : ∀ c, p.call? c = some .asleep →
    0 < p.pending ∨ ∃ w phase, p.phase? w = some phase ∧ phase.isAnnouncing = true
  joins : ∀ c next goal phase, p.call? c = some (.joining next goal) →
    p.phase? next = some phase → phase ≠ .exited → ∃ w, p.CanMove (.worker w)

theorem Run.live {size : PoolSize} (run : Run (.new size) events p)
    (orderly : SubmissionsFirst events) : p.Live where
  moves := run.exists_canMove orderly
  puts _ := run.exists_serves orderly
  gets _ dozing items := exists_notified_worker run.sound.linked items dozing
  drains c there := by
    refine (run.sound.guarded.waiters c (by rw [there]; rfl)).imp_right fun ⟨w, announcing⟩ => ?_
    obtain ⟨phase, found, holds⟩ := (Option.any_eq_true _ _).mp announcing
    exact ⟨w, phase, found, holds⟩
  joins _ _ _ _ there found running := run.exists_worker_canMove orderly there found running

def crowded : List (Move Nat) :=
  [.start 0 (.ok ()), .caller 0 none, .begin 0 (.submit (.transfer "in" "out")), .caller 0 none,
    .caller 0 none, .caller 0 none, .caller 0 none, .begin 0 .endTransaction, .caller 0 none,
    .caller 0 none, .caller 0 none]

/-- The end of the transaction sleeps behind a job that the only worker has not fetched yet. -/
theorem live_of_crowded : ∃ change : Change Nat,
    (Pool.new single).follow crowded = some change ∧ SubmissionsFirst change.2 ∧
      (∃ putter ∈ change.1.queue.putters, putter.phase = .asleep) ∧ change.1.Live := by
  have played : ((Pool.new single).follow crowded).any (fun change =>
      decide (SubmissionsFirst change.2 ∧
        ∃ putter ∈ change.1.queue.putters, putter.phase = .asleep)) = true := by
    decide
  obtain ⟨change, follows, holds⟩ := (Option.any_eq_true _ _).mp played
  obtain ⟨orderly, asleep⟩ := of_decide_eq_true holds
  exact ⟨change, follows, orderly, asleep, (Run.of_follow .start follows).live orderly⟩

end Pool

end Spool
