import Spool.Proofs.Pool.Phases
import Spool.Proofs.Queue.Wakeups

/-!
Who is inside the queue. The puts that have not returned belong to the callers that schedule a job,
the gets to the workers that fetch one, each to one thread; and nobody in them sleeps for nothing.
-/

namespace Spool

variable {κ : Type}

def CallPhase.isPutting : CallPhase κ → Bool
  | .putting _ _ => true
  | _ => false

theorem Goal.isPutting_of_next {goal : Goal} {more : Nat} {phase : CallPhase κ}
    (next : goal.next more = some phase) : phase.isPutting = false := by
  cases more with
  | zero =>
    cases goal with
    | submit | close => cases next
    | drop | abandon error => cases next; rfl
  | succ more => cases next; rfl

namespace Pool

/-- What the worker with this number is doing. -/
def phase? (p : Pool κ) (w : Nat) : Option WorkerPhase :=
  (p.worker? w).map (·.phase)

structure Linked (p : Pool κ) : Prop where
  distinct : p.queue.Distinct
  putters : ∀ thread, thread ∈ p.queue.putters.map (·.thread) ↔
    ∃ c more goal, thread = .caller c ∧ p.call? c = some (.putting more goal)
  getters : ∀ thread, thread ∈ p.queue.getters.map (·.thread) ↔
    ∃ w, thread = .worker w ∧ p.phase? w = some .fetching
  /-- What a caller puts is a termination unless it submits. -/
  kinds : ∀ putter ∈ p.queue.putters, ∀ c more goal, putter.thread = .caller c →
    p.call? c = some (.putting more goal) → putter.item.job.isTermination = !goal.isSubmit
  wakeful : p.queue.Wakeful

theorem linked_new (size : PoolSize) : (new size : Pool κ).Linked := by
  refine ⟨Queue.distinct_of_nobody rfl rfl, ?_, ?_, ?_, Queue.wakeful_of_nobody rfl rfl⟩
  · intro thread
    refine iff_of_false List.not_mem_nil ?_
    rintro ⟨c, more, goal, _, there⟩
    cases List.mem_singleton.mp (mem_of_call? there)
  · intro thread
    refine iff_of_false List.not_mem_nil ?_
    rintro ⟨w, _, there⟩
    cases there
  · intro putter member
    cases member

theorem phase?_of_worker? {p : Pool κ} {w : Nat} {worker : Worker}
    (there : p.worker? w = some worker) : p.phase? w = some worker.phase := by
  simp only [phase?, there, Option.map_some]

theorem worker?_of_phase? {p : Pool κ} {w : Nat} {phase : WorkerPhase}
    (there : p.phase? w = some phase) : ∃ worker, p.worker? w = some worker ∧
      worker.phase = phase :=
  Option.map_eq_some_iff.mp there

theorem le_workerSum {p : Pool κ} {f : WorkerPhase → Nat} {w : Nat} {phase : WorkerPhase}
    (there : p.phase? w = some phase) : f phase ≤ p.workerSum f := by
  obtain ⟨worker, found, rfl⟩ := worker?_of_phase? there
  exact le_tally (fun worker : Worker => f worker.phase) (List.mem_of_getElem? found)

theorem phase?_worker {p q : Pool κ} {w : Nat} {worker new : Worker} {phase : WorkerPhase}
    {events : List (Event κ)} (there : p.worker? w = some worker)
    (turn : WorkerTurn p w worker phase new q events) (v : Nat) :
    (q.setWorker w new).phase? v = if v = w then some new.phase else p.phase? v := by
  simp only [phase?, worker?_worker there turn]
  split <;> rfl

theorem phase?_caller {p q : Pool κ} {c : Nat} {phase : CallPhase κ}
    {next : Option (CallPhase κ)} {events : List (Event κ)}
    (turn : CallerTurn p c phase next q events) (quiet : phase.isStarting = false) (w : Nat) :
    (q.goOn c next).phase? w = p.phase? w := by
  rcases workers_of_callerTurn turn with same | ⟨starting, _⟩
  · simp only [phase?, worker?, goOn_workers, same]
  · rw [quiet] at starting
    cases starting

theorem phase?_started (p : Pool κ) (w : Nat) :
    (p.workers ++ [({} : Worker)])[w]?.map (·.phase) =
      if w = p.workers.length then some .fetching else p.phase? w := by
  simp only [phase?, worker?]
  split
  · next same => simp [same]
  · next other =>
    rcases Nat.lt_or_ge w p.workers.length with inside | outside
    · rw [List.getElem?_append_left inside]
    · rw [List.getElem?_eq_none outside, List.getElem?_eq_none]
      simp only [List.length_append, List.length_singleton]
      omega

theorem putting_worker {p q : Pool κ} {w : Nat} {worker new : Worker} {phase : WorkerPhase}
    {events : List (Event κ)} (turn : WorkerTurn p w worker phase new q events) (c more : Nat)
    (goal : Goal) : (q.setWorker w new).call? c = some (.putting more goal) ↔
      p.call? c = some (.putting more goal) := by
  rcases call?_worker turn c with same | woken
  · rw [same]
  · rw [woken]
    constructor
    · intro there
      obtain ⟨old, known, same⟩ := Option.map_eq_some_iff.mp there
      cases old <;> first | (cases same; done) | (rw [known, ← same]; rfl)
    · intro there
      rw [there]
      rfl

theorem linked_of_same {p q : Pool κ} (linked : p.Linked) (queue : q.queue = p.queue)
    (calls : ∀ c more goal, q.call? c = some (.putting more goal) ↔
      p.call? c = some (.putting more goal))
    (workers : ∀ w, q.phase? w = some .fetching ↔ p.phase? w = some .fetching) : q.Linked := by
  refine ⟨queue ▸ linked.distinct, ?_, ?_, ?_, queue ▸ linked.wakeful⟩
  · intro thread
    rw [queue, linked.putters]
    simp only [calls]
  · intro thread
    rw [queue, linked.getters]
    simp only [workers]
  · intro putter member c more goal thread there
    exact linked.kinds putter (queue ▸ member) c more goal thread ((calls c more goal).mp there)

theorem putting_caller {p q : Pool κ} {c : Nat} {phase : CallPhase κ}
    {next : Option (CallPhase κ)} {events : List (Event κ)} (there : p.call? c = some phase)
    (turn : CallerTurn p c phase next q events) (before : phase.isPutting = false)
    (after : ∀ later, next = some later → later.isPutting = false) (d more : Nat) (goal : Goal) :
    (q.goOn c next).call? d = some (.putting more goal) ↔
      p.call? d = some (.putting more goal) := by
  rw [call?_caller there turn]
  split
  · next same =>
    rw [same, there]
    constructor
    · intro now
      cases after _ now
    · intro now
      cases now
      cases before
  · rfl

theorem linked_beginGet {p : Pool κ} (linked : p.Linked) {w : Nat}
    (busy : p.phase? w ≠ some .fetching) {q : Pool κ} (queue : q.queue = p.queue.beginGet (.worker w))
    (calls : ∀ c more goal, q.call? c = some (.putting more goal) ↔
      p.call? c = some (.putting more goal))
    (workers : ∀ v, q.phase? v = if v = w then some .fetching else p.phase? v) : q.Linked := by
  have absent : Thread.worker w ∉ p.queue.getters.map (·.thread) := by
    rw [linked.getters]
    rintro ⟨v, same, fetching⟩
    cases same
    exact busy fetching
  refine ⟨?_, ?_, ?_, ?_, ?_⟩
  · rw [queue]
    exact Queue.distinct_beginGet linked.distinct absent
  · intro thread
    simp only [queue, Queue.beginGet_putters, calls, linked.putters]
  · intro thread
    simp only [queue, Queue.beginGet_getters, List.map_append, List.map_cons, List.map_nil,
      List.mem_append, List.mem_singleton, linked.getters, workers]
    constructor
    · rintro (⟨v, same, fetching⟩ | rfl)
      · refine ⟨v, same, ?_⟩
        split
        · rfl
        · exact fetching
      · exact ⟨w, rfl, if_pos rfl⟩
    · rintro ⟨v, same, fetching⟩
      split at fetching
      · next here => exact .inr (here ▸ same)
      · exact .inl ⟨v, same, fetching⟩
  · intro putter member c more goal thread now
    rw [queue] at member
    exact linked.kinds putter member c more goal thread ((calls c more goal).mp now)
  · rw [queue]
    exact Queue.wakeful_beginGet linked.wakeful _

theorem linked_counted {p : Pool κ} (linked : p.Linked) {c : Nat} {job : Job} {more : Nat}
    {goal : Goal} (there : p.call? c = some (.counting job more goal))
    (kind : job.isTermination = !goal.isSubmit) {q : Pool κ}
    (queue : q.queue = p.queue.beginPut (.caller c) ⟨p.issued, job⟩)
    (calls : ∀ d, q.call? d = if d = c then some (.putting more goal) else p.call? d)
    (workers : ∀ w, q.phase? w = p.phase? w) : q.Linked := by
  have absent : Thread.caller c ∉ p.queue.putters.map (·.thread) := by
    rw [linked.putters]
    rintro ⟨d, _, _, same, putting⟩
    cases same
    rw [there] at putting
    cases putting
  refine ⟨?_, ?_, ?_, ?_, ?_⟩
  · rw [queue]
    exact Queue.distinct_beginPut linked.distinct absent _
  · intro thread
    simp only [queue, Queue.beginPut_putters, List.map_append, List.map_cons, List.map_nil,
      List.mem_append, List.mem_singleton, linked.putters, calls]
    constructor
    · rintro (⟨d, n, g, same, putting⟩ | same)
      · refine ⟨d, n, g, same, ?_⟩
        have other : d ≠ c := fun impossible => by
          rw [impossible, there] at putting
          cases putting
        rwa [if_neg other]
      · exact ⟨c, more, goal, same, if_pos rfl⟩
    · rintro ⟨d, n, g, same, putting⟩
      split at putting
      · next here => exact .inr (here ▸ same)
      · exact .inl ⟨d, n, g, same, putting⟩
  · intro thread
    simp only [queue, Queue.beginPut_getters, linked.getters, workers]
  · intro putter member d n g thread putting
    rw [calls] at putting
    rw [queue, Queue.beginPut_putters] at member
    rcases List.mem_append.mp member with old | new
    · split at putting
      · next here =>
        subst here
        exact absurd (List.mem_map.mpr ⟨putter, old, thread⟩) absent
      · exact linked.kinds putter old d n g thread putting
    · cases List.mem_singleton.mp new
      cases thread
      rw [if_pos rfl] at putting
      cases putting
      exact kind
  · rw [queue]
    exact Queue.wakeful_beginPut linked.wakeful _ _

theorem linked_put {p : Pool κ} (linked : p.Linked) {c : Nat}
    {next : Option (CallPhase κ)} {putter : Putter Thread Ticket} {woken : Option Thread}
    (found : p.queue.putter? (.caller c) = some putter) (may : p.queue.mayWake woken = true)
    (after : ∀ later, next = some later → later.isPutting = false) {q : Pool κ}
    (queue : q.queue = (p.queue.append putter).wakeGetter woken)
    (calls : ∀ d, q.call? d = if d = c then next else p.call? d)
    (workers : ∀ w, q.phase? w = p.phase? w) : q.Linked := by
  have thread : putter.thread = .caller c := (Queue.mem_of_putter? found).2
  have getters : q.queue.getters.map (·.thread) = p.queue.getters.map (·.thread) := by
    rw [queue]
    exact Queue.sameGetters_wakeGetter (p.queue.append putter) woken
  have members : ∀ r, r ∈ q.queue.putters ↔ r ∈ p.queue.putters ∧ r.thread ≠ .caller c := by
    intro r
    simp only [queue, Queue.wakeGetter_putters, Queue.append_putters, List.mem_filter, thread,
      ne_eq, decide_eq_true_eq]
  have others : ∀ d n g, q.call? d = some (.putting n g) ↔
      d ≠ c ∧ p.call? d = some (.putting n g) := by
    intro d n g
    rw [calls]
    split
    · next here =>
      refine iff_of_false (fun now => ?_) fun now => now.1 here
      cases after _ now
    · next other => exact ⟨fun now => ⟨other, now⟩, fun now => now.2⟩
  refine ⟨?_, ?_, ?_, ?_, ?_⟩
  · rw [queue]
    exact Queue.distinct_append linked.distinct putter woken
  · intro t
    simp only [others]
    constructor
    · intro member
      obtain ⟨r, known, rfl⟩ := List.mem_map.mp member
      obtain ⟨old, apart⟩ := (members r).mp known
      obtain ⟨d, n, g, same, putting⟩ :=
        (linked.putters r.thread).mp (List.mem_map.mpr ⟨r, old, rfl⟩)
      exact ⟨d, n, g, same, fun here => apart (here ▸ same), putting⟩
    · rintro ⟨d, n, g, same, other, putting⟩
      obtain ⟨r, old, rfl⟩ :=
        List.mem_map.mp ((linked.putters t).mpr ⟨d, n, g, same, putting⟩)
      refine List.mem_map.mpr ⟨r, (members r).mpr ⟨old, fun here => ?_⟩, rfl⟩
      rw [same] at here
      cases here
      exact other rfl
  · intro t
    rw [getters, linked.getters]
    simp only [workers]
  · intro r member d n g same putting
    exact linked.kinds r ((members r).mp member).1 d n g same ((others d n g).mp putting).2
  · rw [queue]
    exact Queue.wakeful_append linked.wakeful putter may

theorem linked_caller {p q : Pool κ} (staged : p.Staged) (proper : p.Proper) (linked : p.Linked)
    {c : Nat} {phase : CallPhase κ} {next : Option (CallPhase κ)} {events : List (Event κ)}
    (there : p.call? c = some phase) (turn : CallerTurn p c phase next q events) :
    (q.goOn c next).Linked := by
  have calls := call?_caller there turn
  have putting := putting_caller there turn
  have workers := phase?_caller turn
  cases turn with
  | @started n more =>
    rcases staged.stage with building | abandoned | running
    · obtain ⟨rfl, same⟩ := building.eq_starting there
      cases same
      refine linked_beginGet linked ?_ (by simp) (putting rfl ?_) (phase?_started p)
      · simp [phase?, worker?]
      · intro later now
        cases now
        rfl
    · cases (abandoned.calls c _ there).1
    · cases (running.calls c _ there).1
  | abandoned =>
    refine linked_of_same linked (by simp) (putting rfl ?_) (fun w => ?_)
    · exact fun later now => Goal.isPutting_of_next now
    · simp only [phase?, worker?, goOn_workers]
  | built =>
    refine linked_of_same linked (by simp) (putting rfl ?_) (fun w => ?_)
    · intro later now
      cases now
    · simp only [phase?, worker?, goOn_workers]
  | counted =>
    exact linked_counted linked there (proper.calls c _ there).2.1 (by simp) calls (workers rfl)
  | put found room may =>
    refine linked_put linked found may ?_ (by simp) calls (workers rfl)
    exact fun later now => Goal.isPutting_of_next now
  | closed =>
    refine linked_of_same linked (by simp) (putting rfl ?_) (fun w => by rw [workers rfl])
    exact fun later now => Goal.isPutting_of_next now
  | opened | made | dropping | joined | locked | tired | slept | roused | refused | late
  | allJoined | drained | taken | registered | cleared | switched =>
    refine linked_of_same linked (by simp) (putting rfl ?_) (fun w => by rw [workers rfl])
    intro later now
    cases now
    try rfl

theorem linked_removed {p : Pool κ} (linked : p.Linked) {w : Nat} {ticket : Ticket}
    {rest : List Ticket} (items : p.queue.items = ticket :: rest) {phase : WorkerPhase}
    (busy : phase ≠ .fetching) {q : Pool κ} (queue : q.queue = p.queue.remove (.worker w) rest)
    (calls : ∀ c, q.call? c = p.call? c)
    (workers : ∀ v, q.phase? v = if v = w then some phase else p.phase? v) : q.Linked := by
  have putters : q.queue.putters.map (·.thread) = p.queue.putters.map (·.thread) := by
    rw [queue]
    exact Queue.threads_of_samePutters (Queue.samePutters_remove p.queue (.worker w) rest)
  have others : ∀ v, q.phase? v = some .fetching ↔ v ≠ w ∧ p.phase? v = some .fetching := by
    intro v
    rw [workers]
    split
    · next here =>
      refine iff_of_false (fun now => ?_) fun now => now.1 here
      exact busy (Option.some.inj now)
    · next other => exact ⟨fun now => ⟨other, now⟩, fun now => now.2⟩
  refine ⟨?_, ?_, ?_, ?_, ?_⟩
  · rw [queue]
    exact Queue.distinct_remove linked.distinct (.worker w) rest
  · intro t
    rw [putters, linked.putters]
    simp only [calls]
  · intro t
    simp only [others, queue, Queue.remove_getters]
    constructor
    · intro member
      obtain ⟨g, known, rfl⟩ := List.mem_map.mp member
      obtain ⟨old, apart⟩ := List.mem_filter.mp known
      obtain ⟨v, same, fetching⟩ :=
        (linked.getters g.thread).mp (List.mem_map.mpr ⟨g, old, rfl⟩)
      refine ⟨v, same, fun here => ?_, fetching⟩
      rw [same, here] at apart
      simp at apart
    · rintro ⟨v, same, other, fetching⟩
      obtain ⟨g, old, rfl⟩ := List.mem_map.mp ((linked.getters t).mpr ⟨v, same, fetching⟩)
      refine List.mem_map.mpr ⟨g, List.mem_filter.mpr ⟨old, ?_⟩, rfl⟩
      simpa [same] using other
  · intro r member d n g same putting
    rw [queue] at member
    obtain ⟨old, known, thread, item⟩ :=
      mem_of_samePutters (Queue.samePutters_remove p.queue (.worker w) rest) member
    rw [← item]
    exact linked.kinds old known d n g (thread.trans same) (calls d ▸ putting)
  · rw [queue]
    exact Queue.wakeful_remove linked.distinct linked.wakeful items _

theorem linked_worker {p q : Pool κ} (linked : p.Linked) {w : Nat} {worker new : Worker}
    {events : List (Event κ)} (there : p.worker? w = some worker)
    (turn : WorkerTurn p w worker worker.phase new q events) : (q.setWorker w new).Linked := by
  have before := phase?_of_worker? there
  have workers := phase?_worker there turn
  have calls := putting_worker turn
  generalize worker.phase = phase at before turn
  have stay : q.queue = p.queue → phase ≠ .fetching → new.phase ≠ .fetching →
      (q.setWorker w new).Linked := by
    intro queue busy still
    refine linked_of_same linked queue calls fun v => ?_
    rw [workers]
    split
    · next here =>
      rw [here, before]
      exact iff_of_false (fun now => still (Option.some.inj now)) fun now =>
        busy (Option.some.inj now)
    · rfl
  cases turn with
  | stopped items | fetched items =>
    exact linked_removed linked items (fun impossible => by cases impossible) rfl
      (fun _ => rfl) workers
  | released | woke =>
    refine linked_beginGet linked ?_ rfl calls workers
    rw [before]
    exact fun impossible => by cases impossible
  | counted | unheard | left =>
    refine stay rfl (fun impossible => by cases impossible) ?_
    dsimp only
    split <;> exact fun impossible => by cases impossible
  | _ =>
    exact stay rfl (fun impossible => by cases impossible) fun impossible => by cases impossible

theorem linked_turn {p q : Pool κ} {events : List (Event κ)} (staged : p.Staged)
    (proper : p.Proper) (linked : p.Linked) (turn : p.Turn events q) : q.Linked := by
  cases turn with
  | @called c call _ _ free _ =>
    refine linked_of_same linked rfl (fun d more goal => ?_) fun w => Iff.rfl
    rw [call?_called p _ free]
    split
    · next here =>
      rw [here, free]
      exact iff_of_false (fun now => by cases call <;> cases now) fun now => by cases now
    · rfl
  | @dropped c _ _ empty =>
    refine linked_of_same linked rfl (fun d more goal => ?_) fun w => Iff.rfl
    refine iff_of_false (fun now => ?_) fun now => ?_
    · cases List.mem_singleton.mp (mem_of_call? now)
    · have member := mem_of_call? now
      rw [empty] at member
      cases member
  | caller there made => exact linked_caller staged proper linked there made
  | worker there made => exact linked_worker linked there made
  | dozed doze =>
    have pos : 0 < p.queue.capacity := staged.capacity ▸ p.size.capacity_pos
    have putters := Queue.samePutters_of_doze doze
    refine ⟨Queue.distinct_doze linked.distinct doze, ?_, ?_, ?_,
      Queue.wakeful_doze pos linked.wakeful doze⟩
    · intro thread
      rw [Queue.threads_of_samePutters putters]
      exact linked.putters thread
    · intro thread
      rw [show _ = _ from Queue.sameGetters_of_doze doze]
      exact linked.getters thread
    · intro putter member d more goal thread there
      obtain ⟨old, known, same, item⟩ := mem_of_samePutters putters member
      exact item ▸ linked.kinds old known d more goal (same.trans thread) there

end Pool

end Spool
