import Spool.Proofs.Pool.Shutdown

/-!
The tear-down. A termination for each worker is scheduled after the transaction was closed, and none
besides; every worker executes one. The worker that executes the last of them, and no other, tears
the pool down, once.
-/

namespace Spool

variable {κ : Type}

def Event.isTornDown : Event κ → Bool
  | .tornDown _ => true
  | _ => false

namespace Pool

variable {p q : Pool κ} {events more : List (Event κ)}

section Scheduled

theorem counted_turn (f : Ticket → Nat) (linked : p.Linked) (turn : p.Turn more q) :
    tally (fun putter => f putter.item) q.queue.putters + tally f (appendedTickets more) =
      tally (fun putter => f putter.item) p.queue.putters + tally f (countedTickets more) := by
  cases turn with
  | called | dropped => simp [Event.appended?, Event.counted?]
  | caller _ made =>
    cases made with
    | @put _ _ putter _ found =>
      obtain ⟨member, thread⟩ := Queue.mem_of_putter? found
      have left := tally_filter (fun putter => f putter.item) linked.distinct.putters member
      simp only [ne_eq, decide_not] at left
      simp [Event.appended?, Event.counted?]
      omega
    | _ => simp [Event.appended?, Event.counted?]
  | @worker w worker _ _ _ _ made =>
    generalize worker.phase = phase at made
    cases made with
    | stopped | fetched =>
      have same := tally_samePutters f (Queue.samePutters_remove p.queue (.worker w) ‹_›)
      simp [same, Event.appended?, Event.counted?]
    | _ => simp [Event.appended?, Event.counted?]
  | dozed doze => simp [tally_samePutters f (Queue.samePutters_of_doze doze)]

theorem Run.counted_eq {size : PoolSize} (f : Ticket → Nat) (run : Run (.new size) events p) :
    tally f (countedTickets events) =
      tally (fun putter => f putter.item) p.queue.putters + tally f (appendedTickets events) := by
  refine run.induct_sound (motive := fun events p => tally f (countedTickets events) =
    tally (fun putter => f putter.item) p.queue.putters + tally f (appendedTickets events)) rfl ?_
  intro events p q more sound before turn
  have step := counted_turn f sound.linked turn
  simp only [countedTickets_append, appendedTickets_append, tally_append]
  omega

/-- Entries that have different keys, each of them matched by one under its key, weigh no more than
these. -/
theorem tally_le_of_matched {α β γ : Type} [DecidableEq γ] {f : α → Nat} {g : β → Nat} {key : α → γ}
    {name : β → γ} {xs : List α} {ys : List β} (keys : (xs.map key).Nodup)
    (names : (ys.map name).Nodup)
    (matched : ∀ x ∈ xs, f x = 0 ∨ ∃ y ∈ ys, name y = key x ∧ f x ≤ g y) :
    tally f xs ≤ tally g ys := by
  induction xs generalizing ys with
  | nil => exact Nat.zero_le _
  | cons x xs ih =>
    rw [List.map_cons, List.nodup_cons] at keys
    have rest := fun x member => matched x (List.mem_cons_of_mem _ member)
    rw [tally_cons]
    rcases matched x List.mem_cons_self with none | ⟨y, member, same, le⟩
    · have le := ih keys.2 names rest
      omega
    · have left := tally_filter g names member
      have le : tally f xs ≤ tally g (ys.filter fun b => name b ≠ name y) := by
        refine ih keys.2 ((List.filter_sublist.map _).nodup names) fun x known => ?_
        rcases rest x known with none | ⟨z, there, equal, le⟩
        · exact .inl none
        · refine .inr ⟨z, List.mem_filter.mpr ⟨there, decide_eq_true fun shared => ?_⟩, equal, le⟩
          exact keys.1 (List.mem_map.mpr ⟨x, known, equal.symm.trans (shared.trans same)⟩)
      omega

theorem putting_le (staged : p.Staged) (linked : p.Linked) :
    tally (fun putter => putter.item.stops) p.queue.putters ≤ p.callSum CallPhase.toCome := by
  refine tally_le_of_matched linked.distinct.putters (nodup_threads staged.callers)
    fun putter member => ?_
  obtain ⟨c, left, goal, thread, there⟩ :=
    (linked.putters putter.thread).mp (List.mem_map.mpr ⟨putter, member, rfl⟩)
  have kind := linked.kinds putter member c left goal thread there
  cases submits : goal.isSubmit with
  | true => exact .inl (by simp [Ticket.stops, kind, submits])
  | false =>
    refine .inr ⟨_, mem_of_call? there, thread.symm, ?_⟩
    simp [Ticket.stops, kind, submits, CallPhase.toCome]

theorem Run.scheduled_le {size : PoolSize} (run : Run (.new size) events p) :
    tally Ticket.stops (countedTickets events) ≤ if p.isEnding then p.workers.length else 0 := by
  have sound := run.sound
  have putting := putting_le sound.staged sound.linked
  have counted := run.counted_eq Ticket.stops
  have removed := run.removed.stopped
  rw [sound.accounted.order, tally_append, removed] at counted
  rw [← sound.balanced.load, terminationLoad]
  omega

end Scheduled

section Closing

theorem uninitialized_turn (sound : Sound events p) (early : p.lifecycle = .uninitialized)
    (ending : p.isEnding = true) (turn : p.Turn more q) : q.lifecycle = .uninitialized := by
  cases turn with
  | called begun | dropped begun => exact absurd early begun
  | caller there made =>
    rcases sound.staged.stage with building | abandoned | running
    · rw [isEnding_of_building building] at ending
      cases ending
    · exact (abandoned_caller abandoned there made).stage
    · exact absurd early running.stage
  | @worker _ worker _ _ _ there made =>
    rw [setWorker_lifecycle]
    rcases lifecycle_worker sound.staged sound.proper sound.balanced there made with
      same | ⟨running, _⟩
    · exact same.trans early
    · exact absurd early running.stage
  | dozed => exact early

theorem Run.uninitialized_after {before : List (Event κ)} (sound : Sound before p)
    (early : p.lifecycle = .uninitialized) (ending : p.isEnding = true) (run : Run p events q) :
    q.lifecycle = .uninitialized := by
  induction run with
  | start => exact early
  | next goes made ih =>
    exact uninitialized_turn (goes.sound_after sound) ih (goes.ending_after sound ending).1
      (turn_of_step? made)

theorem Run.closed_of_running {size : PoolSize} (run : Run (.new size) events p)
    (begun : p.lifecycle ≠ .uninitialized) (shut : p.lifecycle.acceptsJobs = false) :
    ∃ c, .closed c ∈ events := by
  revert begun shut
  refine run.induct_sound (motive := fun events p => p.lifecycle ≠ .uninitialized →
    p.lifecycle.acceptsJobs = false → ∃ c, .closed c ∈ events) (fun begun => absurd rfl begun) ?_
  intro events p q more sound before turn begun shut
  have old : p.lifecycle ≠ .uninitialized → p.lifecycle.acceptsJobs = false →
      ∃ c, .closed c ∈ events ++ more := by
    intro begun shut
    obtain ⟨c, member⟩ := before begun shut
    exact ⟨c, List.mem_append_left _ member⟩
  cases turn with
  | called | dropped | dozed => exact old begun shut
  | @caller c _ _ _ _ _ made =>
    rw [goOn_lifecycle] at begun shut
    cases made with
    | built | opened => cases shut
    | closed => exact ⟨c, List.mem_append_right _ List.mem_cons_self⟩
    | _ => exact old begun shut
  | @worker _ worker _ _ _ there made =>
    rw [setWorker_lifecycle] at begun shut
    refine old (fun early => ?_) (accepts_worker sound.proper sound.balanced there made ▸ shut)
    rcases lifecycle_worker sound.staged sound.proper sound.balanced there made with
      same | ⟨running, _⟩
    · exact begun (same.trans early)
    · exact running.stage early

theorem counted_of_turn (turn : p.Turn more q) {first rest : List (Event κ)} {c : Nat}
    {ticket : Ticket} (split : more = first ++ .counted c ticket :: rest) :
    first = [] ∧ rest = [] ∧ q.lifecycle = p.lifecycle := by
  have member : Event.counted c ticket ∈ more :=
    split ▸ List.mem_append_right _ List.mem_cons_self
  cases turn with
  | called | dropped => cases List.mem_singleton.mp member
  | dozed => cases member
  | caller _ made =>
    rw [goOn_lifecycle]
    cases made with
    | counted =>
      cases first with
      | nil => exact ⟨rfl, (List.cons.inj split).2.symm, rfl⟩
      | cons head first => simp at split
    | _ => simp [not_heard] at member
  | @worker _ worker _ _ _ _ made =>
    generalize worker.phase = phase at made
    cases made <;> simp at member

theorem Run.closed_of_counted {size : PoolSize} (run : Run (.new size) events p)
    (built : p.lifecycle ≠ .uninitialized) {before after : List (Event κ)} {c : Nat}
    {ticket : Ticket} (split : events = before ++ .counted c ticket :: after)
    (stop : ticket.job.isTermination = true) : ∃ d, .closed d ∈ before := by
  obtain ⟨earlier, mid, first, rest, move, next, later, begins, made, goes, rfl, _⟩ :=
    run.cut_step split
  obtain ⟨rfl, rfl, same⟩ := counted_of_turn (turn_of_step? made) rfl
  have reached := begins.next made
  have scheduled := reached.scheduled_le
  simp only [List.nil_append, countedTickets_append, tally_append, countedTickets_cons,
    Event.counted?, Option.toList_some, countedTickets_nil, List.append_nil, tally_cons, tally_nil,
    Ticket.stops, stop, Bool.toNat_true] at scheduled
  have ending : next.isEnding = true := by
    cases ending : next.isEnding with
    | true => rfl
    | false =>
      rw [ending] at scheduled
      simp at scheduled
  have begun : next.lifecycle ≠ .uninitialized := fun early =>
    built (goes.uninitialized_after reached.sound early ending)
  simp only [isEnding, Bool.and_eq_true, Bool.not_eq_true'] at ending
  rw [List.append_nil]
  exact begins.closed_of_running (same ▸ begun) (same ▸ ending.1)

end Closing

section Tearing

def tearWeight : WorkerPhase → Nat
  | .tearing _ => 1
  | _ => 0

def tallyWeight : WorkerPhase → Nat
  | .tallying _ => 1
  | _ => 0

/-- How often the pool was torn down. -/
def tearDowns (events : List (Event κ)) : Nat :=
  events.countP Event.isTornDown

/-- The tear-down is due once every termination was executed, and not before. -/
structure Torn (events : List (Event κ)) (p : Pool κ) : Prop where
  due : tearDowns events + p.workerSum tearWeight =
    if p.terminationsExecuted = p.size.workers then 1 else 0
  counted : p.teardowns + p.workerSum tallyWeight = tearDowns events
  stage : 0 < tearDowns events → p.lifecycle = .tornDown

theorem torn_new (size : PoolSize) : Torn [] (new size : Pool κ) := by
  have none : (new size : Pool κ).terminationsExecuted ≠ (new size : Pool κ).size.workers :=
    Nat.ne_of_lt size.workers_pos
  refine ⟨?_, rfl, fun some => by cases some⟩
  rw [if_neg none]
  rfl

theorem tearDowns_append : tearDowns (events ++ more) = tearDowns events + tearDowns more :=
  List.countP_append

theorem tearDowns_heard (goal : Goal) (c left : Nat) :
    tearDowns (goal.heard (κ := κ) c left) = 0 := by
  rcases heard_cases (κ := κ) goal c left with same | same <;> rw [same] <;> rfl

theorem torn_caller (sound : Sound events p) (torn : Torn events p) {c : Nat}
    {phase : CallPhase κ} {next : Option (CallPhase κ)} (there : p.call? c = some phase)
    (turn : CallerTurn p c phase next q more) : Torn (events ++ more) (q.goOn c next) := by
  have silent : tearDowns more = 0 := by
    cases turn with
    | abandoned | put | closed =>
      exact (List.countP_cons_of_neg (by simp [Event.isTornDown])).trans (tearDowns_heard _ _ _)
    | _ => rfl
  have sums : (q.goOn c next).workerSum tearWeight = p.workerSum tearWeight ∧
      (q.goOn c next).workerSum tallyWeight = p.workerSum tallyWeight := by
    cases turn <;> simp [workerSum, tearWeight, tallyWeight]
  refine ⟨?_, ?_, ?_⟩
  · rw [tearDowns_append, silent, sums.1, goOn_terminationsExecuted, goOn_size,
      (executed_caller turn).1, size_of_callerTurn turn]
    exact torn.due
  · rw [tearDowns_append, silent, sums.2, goOn_teardowns,
      show q.teardowns = p.teardowns by cases turn <;> rfl]
    exact torn.counted
  · rw [tearDowns_append, silent, goOn_lifecycle]
    intro some
    have down := torn.stage some
    cases turn with
    | opened accepts | closed accepts =>
      rw [down] at accepts
      cases accepts
    | built =>
      rw [(sound.staged.building there).stage] at down
      cases down
    | _ => exact down

/-- The worker that executes the last termination has the tear-down before it, and whoever has it
before them gets it done. -/
theorem tear_worker {w : Nat} {worker new : Worker} {phase : WorkerPhase}
    (turn : WorkerTurn p w worker phase new q more)
    (bound : q.terminationsExecuted ≤ p.size.workers) :
    tearDowns more + tearWeight new.phase +
          (if p.terminationsExecuted = p.size.workers then 1 else 0) =
        tearWeight phase + (if q.terminationsExecuted = p.size.workers then 1 else 0) ∧
      q.teardowns + tallyWeight new.phase = p.teardowns + tallyWeight phase + tearDowns more := by
  cases turn with
  | left =>
    have before : p.terminationsExecuted ≠ p.size.workers := fun all => by
      simp only [all] at bound
      omega
    simp only [before, if_false]
    split <;> simp [tearDowns, tearWeight, tallyWeight]
  | counted | unheard =>
    simp only [apply_ite tearWeight, apply_ite tallyWeight]
    simp [tearDowns, tearWeight, tallyWeight, Event.isTornDown]
  | wokeExit | woke => exact ⟨rfl, rfl⟩
  | _ =>
    simp [tearDowns, tearWeight, tallyWeight, Event.isTornDown]

theorem torn_worker (sound : Sound events p) (torn : Torn events p) {w : Nat}
    {worker new : Worker} (there : p.worker? w = some worker)
    (turn : WorkerTurn p w worker worker.phase new q more) :
    Torn (events ++ more) (q.setWorker w new) := by
  have tears := workerSum_setWorker tearWeight there (frame_of_workerTurn turn).2 new
  have tallies := workerSum_setWorker tallyWeight there (frame_of_workerTurn turn).2 new
  obtain ⟨step, count⟩ := tear_worker turn
    (executed_lt sound.staged sound.proper sound.balanced there turn)
  have due := torn.due
  have counted := torn.counted
  refine ⟨?_, ?_, ?_⟩
  · rw [tearDowns_append, setWorker_terminationsExecuted, setWorker_size,
      (frame_of_workerTurn turn).1]
    omega
  · rw [tearDowns_append, setWorker_teardowns]
    omega
  · rw [tearDowns_append, setWorker_lifecycle]
    have stage := torn.stage
    generalize worker.phase = phase at turn
    cases turn with
    | tore => exact fun _ => rfl
    | _ => exact stage

theorem torn_turn (sound : Sound events p) (torn : Torn events p) (turn : p.Turn more q) :
    Torn (events ++ more) q := by
  cases turn with
  | called | dropped | dozed =>
    refine ⟨?_, ?_, ?_⟩ <;> rw [tearDowns_append]
    · exact torn.due
    · exact torn.counted
    · exact torn.stage
  | caller there made => exact torn_caller sound torn there made
  | worker there made => exact torn_worker sound torn there made

theorem Run.torn {size : PoolSize} (run : Run (.new size) events p) : Torn events p :=
  run.induct_sound (torn_new size) torn_turn

end Tearing

section Last

/-- The worker counted the last termination as executed, after the first of two parts of a run. -/
def CountsLast (size : PoolSize) (w : Nat) (before after : List (Event κ)) (p : Pool κ) : Prop :=
  ∃ a b, Run (.new size) before a ∧ a.step? (.worker w) = some (b, []) ∧
    a.terminationsExecuted + 1 = size.workers ∧ b.terminationsExecuted = size.workers ∧
      Run b after p

theorem CountsLast.next {size : PoolSize} {w : Nat} {before after : List (Event κ)}
    (last : CountsLast size w before after p) {move : Move κ}
    (made : p.step? move = some (q, more)) : CountsLast size w before (after ++ more) q := by
  obtain ⟨a, b, run, step, few, all, rest⟩ := last
  exact ⟨a, b, run, step, few, all, rest.next made⟩

/-- A worker that is about to tear the pool down was so before, or has just counted the last
termination. -/
theorem tearing_turn {w : Nat} {ticket : Ticket} (turn : p.Turn more q)
    (there : q.phase? w = some (.tearing ticket)) :
    p.phase? w = some (.tearing ticket) ∨ more = [] ∧ p.terminationsExecuted + 1 = p.size.workers ∧
      q.terminationsExecuted = p.size.workers ∧ p.step? (.worker w) = some (q, []) := by
  cases turn with
  | called | dropped | dozed => exact .inl there
  | caller _ made =>
    refine .inl ?_
    rcases workers_of_callerTurn made with same | ⟨_, started⟩
    · simpa only [phase?, worker?, goOn_workers, same] using there
    · simp only [phase?, worker?, goOn_workers, started] at there
      rw [phase?_started] at there
      split at there
      · cases there
      · exact there
  | @worker v worker new r _ found made =>
    rw [phase?_worker found made] at there
    split at there
    · next same =>
      subst same
      have tearing := Option.some.inj there
      have found : p.worker? w = some worker := found
      generalize known : worker.phase = phase at made
      cases made with
      | left =>
        simp only at tearing
        split at tearing
        · next all =>
          refine .inr ⟨rfl, all, all, ?_⟩
          simp [step?, workerStep?, found, known, proceed, all]
        · cases tearing
      | counted | unheard =>
        simp only at tearing
        split at tearing <;> cases tearing
      | _ => cases tearing
    · exact .inl there

theorem tornDown_of_turn {w : Nat} (turn : p.Turn more q) (member : .tornDown w ∈ more) :
    ∃ ticket, p.phase? w = some (.tearing ticket) := by
  cases turn with
  | called | dropped => cases List.mem_singleton.mp member
  | dozed => cases member
  | caller _ made => cases made <;> simp [not_heard] at member
  | @worker _ worker _ _ _ there made =>
    have known := phase?_of_worker? there
    generalize worker.phase = phase at made known
    cases made with
    | @tore ticket =>
      cases List.mem_singleton.mp member
      exact ⟨ticket, known⟩
    | _ => simp at member

theorem Run.countsLast {size : PoolSize} (run : Run (.new size) events p) (w : Nat) :
    (∀ ticket, p.phase? w = some (.tearing ticket) →
      ∃ before after, events = before ++ after ∧ CountsLast size w before after p) ∧
    (.tornDown w ∈ events → ∃ before after, events = before ++ after ∧ .tornDown w ∈ after ∧
      CountsLast size w before after p) := by
  induction run with
  | start =>
    refine ⟨fun ticket there => ?_, fun member => ?_⟩
    · cases there
    · cases member
  | @next events mid last move more run made ih =>
    have turn := turn_of_step? made
    constructor
    · intro ticket there
      rcases tearing_turn turn there with old | ⟨rfl, few, all, step⟩
      · obtain ⟨before, after, rfl, counts⟩ := ih.1 ticket old
        exact ⟨before, after ++ more, List.append_assoc .., counts.next made⟩
      · rw [run.size_eq] at few all
        exact ⟨events, [], rfl, mid, last, run, step, few, all, .start⟩
    · intro member
      rcases List.mem_append.mp member with old | new
      · obtain ⟨before, after, rfl, known, counts⟩ := ih.2 old
        exact ⟨before, after ++ more, List.append_assoc .., List.mem_append_left _ known,
          counts.next made⟩
      · obtain ⟨ticket, there⟩ := tornDown_of_turn turn new
        obtain ⟨before, after, rfl, counts⟩ := ih.1 ticket there
        exact ⟨before, after ++ more, List.append_assoc .., List.mem_append_right _ new,
          counts.next made⟩

end Last

/-- What is known of the terminations and the tear-down of a pool that was built. -/
structure TornOnce (size : PoolSize) (events : List (Event κ)) (p : Pool κ) : Prop where
  /-- A termination is scheduled after the transaction was closed. -/
  closed : ∀ before c ticket after, events = before ++ .counted c ticket :: after →
    ticket.job.isTermination = true → ∃ d, .closed d ∈ before
  /-- There is one for each worker, at most. -/
  scheduled : ((countedTickets events).countP fun ticket => ticket.job.isTermination) ≤ size.workers
  /-- Every termination that was executed was taken from the queue. -/
  executed : p.terminationsExecuted ≤
    (removedTickets events).countP fun ticket => ticket.job.isTermination
  taken : ((removedTickets events).countP fun ticket => ticket.job.isTermination) ≤ size.workers
  /-- The pool is torn down once, at most, and the tear-down is counted. -/
  once : p.teardowns ≤ events.countP Event.isTornDown ∧ events.countP Event.isTornDown ≤ 1
  /-- Whoever tears it down counted the last termination. -/
  last : ∀ w, .tornDown w ∈ events → ∃ before after, events = before ++ after ∧
    .tornDown w ∈ after ∧ CountsLast size w before after p
  /-- When all workers have exited, it was torn down. -/
  exited : (∀ w, w < size.workers → p.phase? w = some .exited) →
    p.terminationsExecuted = size.workers ∧ p.teardowns = 1 ∧
      events.countP Event.isTornDown = 1 ∧ p.lifecycle = .tornDown

theorem tally_const {α : Type} {f : α → Nat} {n : Nat} {xs : List α} (same : ∀ a ∈ xs, f a = n) :
    tally f xs = xs.length * n := by
  induction xs with
  | nil => simp
  | cons a xs ih =>
    rw [tally_cons, same a List.mem_cons_self, ih fun b member => same b (.tail a member),
      List.length_cons, Nat.succ_mul, Nat.add_comm]

theorem workerSum_of_exited (exited : ∀ w, w < p.workers.length → p.phase? w = some .exited)
    (f : WorkerPhase → Nat) : p.workerSum f = p.workers.length * f .exited := by
  refine tally_const fun worker member => ?_
  obtain ⟨w, inside, rfl⟩ := List.getElem_of_mem member
  have there : p.worker? w = some p.workers[w] := List.getElem?_eq_getElem inside
  rw [Option.some.inj ((phase?_of_worker? there).symm.trans (exited w inside))]

theorem Run.torn_of_exited {size : PoolSize} (run : Run (.new size) events p)
    (built : p.lifecycle ≠ .uninitialized)
    (exited : ∀ w, w < size.workers → p.phase? w = some .exited) :
    p.terminationsExecuted = size.workers ∧ p.teardowns = 1 ∧
      events.countP Event.isTornDown = 1 ∧ p.lifecycle = .tornDown := by
  have same : p.size = size := run.size_eq
  have all : p.workers.length = size.workers := same ▸ (run.sound.staged.running built).workers
  have sums := workerSum_of_exited (all ▸ exited)
  have executed : p.terminationsExecuted = size.workers := by
    rw [run.sound.balanced.executed, sums, all]
    exact Nat.mul_one _
  have torn := run.torn
  have due := torn.due
  have counted := torn.counted
  rw [sums, if_pos (same ▸ executed)] at due
  rw [sums] at counted
  have once : tearDowns events = 1 := due
  exact ⟨executed, counted.trans once, once, torn.stage (once ▸ Nat.one_pos)⟩

theorem Run.torn_once {size : PoolSize} (run : Run (.new size) events p)
    (built : p.lifecycle ≠ .uninitialized) : TornOnce size events p := by
  have sound := run.sound
  have removed := run.removed.stopped
  have same : p.size = size := run.size_eq
  have most : p.workers.length ≤ size.workers := same ▸ workers_le sound.staged
  have torn := run.torn
  have due := torn.due
  have counted := torn.counted
  refine ⟨fun _ _ _ _ => run.closed_of_counted built, ?_, ?_, ?_, ⟨?_, ?_⟩,
    fun w => (run.countsLast w).2, run.torn_of_exited built⟩
  · have scheduled := run.scheduled_le
    rw [tally_stops] at scheduled
    split at scheduled <;> omega
  · rw [← tally_stops, removed]
    exact sound.executed_le
  · rw [← tally_stops, removed]
    exact Nat.le_trans (workerSum_le stopWeight_le_one) most
  · exact Nat.le_of_add_right_le (Nat.le_of_eq counted)
  · refine Nat.le_of_add_right_le (Nat.le_trans (Nat.le_of_eq due) ?_)
    split <;> omega

/-- A pool that is built and dropped, up to the exit of its worker. -/
def droppedAtOnce : List (Move Nat) :=
  [.start 0 (.ok ()), .caller 0 none, .begin 0 .drop, .caller 0 none, .caller 0 none,
    .caller 0 none, .worker 0, .worker 0, .worker 0, .worker 0, .worker 0, .worker 0, .worker 0,
    .worker 0, .worker 0, .worker 0]

theorem torn_once_of_dropped : ∃ change : Change Nat,
    (Pool.new single).follow droppedAtOnce = some change ∧
      change.1.lifecycle ≠ .uninitialized ∧ change.1.phase? 0 = some .exited ∧
        TornOnce single change.2 change.1 := by
  have played : ((Pool.new single).follow droppedAtOnce).any (fun change =>
      decide (change.1.lifecycle ≠ .uninitialized ∧ change.1.phase? 0 = some .exited)) = true := by
    decide
  obtain ⟨change, follows, both⟩ := (Option.any_eq_true _ _).mp played
  obtain ⟨built, exited⟩ := of_decide_eq_true both
  exact ⟨change, follows, built, exited, (Run.of_follow .start follows).torn_once built⟩

end Pool

end Spool
