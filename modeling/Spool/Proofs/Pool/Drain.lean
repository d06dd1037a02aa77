import Spool.Proofs.Pool.Holdings

/-!
Waiting for the drain. The lock is held by the thread that is between taking and giving it back, and
by nobody else. A call that sleeps until the drain, or is about to, still has something to wait for
or a worker on the way to wake it.
-/

namespace Spool

variable {κ : Type}

namespace CallPhase

/-- The caller holds the drain lock. -/
def isGuarding : CallPhase κ → Bool
  | .checking | .dozing => true
  | _ => false

/-- The caller sleeps until the drain, or is about to. -/
def isWaiting : CallPhase κ → Bool
  | .dozing | .asleep => true
  | _ => false

end CallPhase

namespace WorkerPhase

/-- The worker holds the drain lock. -/
def isWaking : WorkerPhase → Bool
  | .waking _ => true
  | _ => false

/-- The worker is on the way to announce the drain. -/
def isAnnouncing : WorkerPhase → Bool
  | .lastOut _ | .waking _ => true
  | _ => false

end WorkerPhase

theorem Goal.idle_of_next {goal : Goal} {more : Nat} {phase : CallPhase κ}
    (next : goal.next more = some phase) :
    phase.isGuarding = false ∧ phase.isWaiting = false := by
  cases more with
  | zero =>
    cases goal with
    | submit | close => cases next
    | drop | abandon error => cases next; exact ⟨rfl, rfl⟩
  | succ more => cases next; exact ⟨rfl, rfl⟩

namespace Pool

variable {p q : Pool κ} {events : List (Event κ)}

/-- The thread is between taking the drain lock and giving it back. -/
def guards (p : Pool κ) : Thread → Bool
  | .caller c => (p.call? c).any CallPhase.isGuarding
  | .worker w => (p.phase? w).any WorkerPhase.isWaking

structure Guarded (p : Pool κ) : Prop where
  holder : ∀ thread, p.drainLock = some thread ↔ p.guards thread = true
  waiters : ∀ c, (p.call? c).any CallPhase.isWaiting = true →
    0 < p.pending ∨ ∃ w, (p.phase? w).any WorkerPhase.isAnnouncing = true

theorem guarded_new (size : PoolSize) : (new size : Pool κ).Guarded := by
  have idle : ∀ c (f : CallPhase κ → Bool), f (.starting 0) = false →
      ((new size : Pool κ).call? c).any f = false := by
    intro c f none
    refine (Option.any_eq_false _ _).mpr fun phase there => ?_
    cases List.mem_singleton.mp (mem_of_call? there)
    rw [none]
  refine ⟨fun thread => iff_of_false (fun none => by cases none) fun guards => ?_, ?_⟩
  · cases thread with
    | caller c => cases (idle c _ rfl).symm.trans guards
    | worker w => cases guards
  · intro c waiting
    cases (idle c _ rfl).symm.trans waiting

theorem holder_taken (guarded : p.Guarded) (free : p.drainLock = none) {thread : Thread}
    (lock : q.drainLock = some thread)
    (guards : ∀ t, q.guards t = true ↔ t = thread ∨ p.guards t = true) :
    ∀ t, q.drainLock = some t ↔ q.guards t = true := by
  intro t
  rw [lock, guards, ← guarded.holder, free]
  simp [eq_comm]

theorem holder_freed (guarded : p.Guarded) {thread : Thread} (held : p.guards thread = true)
    (lock : q.drainLock = none)
    (guards : ∀ t, q.guards t = true ↔ t ≠ thread ∧ p.guards t = true) :
    ∀ t, q.drainLock = some t ↔ q.guards t = true := by
  intro t
  have holds := (guarded.holder thread).mpr held
  rw [lock, guards, ← guarded.holder, holds]
  refine iff_of_false (fun none => by cases none) fun other => ?_
  exact other.1 (Option.some.inj other.2).symm

theorem holder_same (guarded : p.Guarded) (lock : q.drainLock = p.drainLock)
    (guards : ∀ t, q.guards t = p.guards t) :
    ∀ t, q.drainLock = some t ↔ q.guards t = true := by
  intro t
  rw [lock, guards]
  exact guarded.holder t

theorem any_phase?_caller {f : WorkerPhase → Bool} (idle : f .fetching = false) {c : Nat}
    {phase : CallPhase κ} {next : Option (CallPhase κ)}
    (turn : CallerTurn p c phase next q events) (w : Nat) :
    ((q.goOn c next).phase? w).any f = (p.phase? w).any f := by
  rcases workers_of_callerTurn turn with same | ⟨_, more⟩
  · simp only [phase?, worker?, goOn_workers, same]
  · simp only [phase?, worker?, goOn_workers, more]
    rw [phase?_started]
    split
    · next new =>
      rw [List.getElem?_eq_none (Nat.le_of_eq new.symm)]
      exact idle
    · rfl

theorem guards_caller {c : Nat} {phase : CallPhase κ} {next : Option (CallPhase κ)}
    (there : p.call? c = some phase) (turn : CallerTurn p c phase next q events)
    (thread : Thread) : (q.goOn c next).guards thread =
      if thread = .caller c then next.any CallPhase.isGuarding else p.guards thread := by
  cases thread with
  | caller d =>
    simp only [guards, call?_caller there turn, Thread.caller.injEq]
    split <;> rfl
  | worker w =>
    simp only [reduceCtorEq, if_false, guards]
    exact any_phase?_caller rfl turn w

theorem guards_worker {w : Nat} {worker new : Worker} {phase : WorkerPhase}
    (there : p.worker? w = some worker) (turn : WorkerTurn p w worker phase new q events)
    (thread : Thread) : (q.setWorker w new).guards thread =
      if thread = .worker w then new.phase.isWaking else p.guards thread := by
  cases thread with
  | caller c =>
    simp only [reduceCtorEq, if_false, guards]
    rcases call?_worker turn c with same | woken
    · rw [same]
    · rw [woken, Option.any_map]
      refine congrFun (congrArg Option.any (funext fun phase => ?_)) _
      cases phase <;> rfl
  | worker v =>
    simp only [guards, phase?_worker there turn, Thread.worker.injEq]
    split <;> rfl

theorem holder_caller (guarded : p.Guarded) {c : Nat} {phase : CallPhase κ}
    {next : Option (CallPhase κ)} (there : p.call? c = some phase)
    (turn : CallerTurn p c phase next q events) :
    ∀ t, (q.goOn c next).drainLock = some t ↔ (q.goOn c next).guards t = true := by
  have guards := guards_caller there turn
  have mine : p.guards (.caller c) = phase.isGuarding := by
    simp only [Pool.guards, there, Option.any_some]
  cases turn with
  | locked free =>
    refine holder_taken guarded free (goOn_drainLock _ _ _) fun t => ?_
    rw [guards]
    split
    · next same => exact iff_of_true rfl (.inl same)
    · next other => exact ⟨.inr, fun held => held.resolve_left other⟩
  | drained | slept =>
    refine holder_freed guarded mine (by simp) fun t => ?_
    rw [guards]
    split
    · next same => exact iff_of_false (fun held => by cases held) fun other => other.1 same
    · next other => exact ⟨fun held => ⟨other, held⟩, fun held => held.2⟩
  | abandoned | put | closed =>
    refine holder_same guarded (by simp) fun t => ?_
    rw [guards]
    split
    · next same =>
      rw [same, mine]
      refine (Option.any_eq_false _ _).mpr fun later known => ?_
      rw [(Goal.idle_of_next known).1]
    · rfl
  | _ =>
    refine holder_same guarded (by simp) fun t => ?_
    rw [guards]
    split
    · next same => rw [same, mine]; rfl
    · rfl

theorem holder_worker (guarded : p.Guarded) {w : Nat} {worker new : Worker}
    (there : p.worker? w = some worker)
    (turn : WorkerTurn p w worker worker.phase new q events) :
    ∀ t, (q.setWorker w new).drainLock = some t ↔ (q.setWorker w new).guards t = true := by
  have guards := guards_worker there turn
  have mine : p.guards (.worker w) = worker.phase.isWaking := by
    simp only [Pool.guards, phase?_of_worker? there, Option.any_some]
  generalize worker.phase = phase at turn mine
  cases turn with
  | locked free =>
    refine holder_taken guarded free rfl fun t => ?_
    rw [guards]
    split
    · next same => exact iff_of_true rfl (.inl same)
    · next other => exact ⟨.inr, fun held => held.resolve_left other⟩
  | wokeExit | woke =>
    refine holder_freed guarded mine rfl fun t => ?_
    rw [guards]
    split
    · next same => exact iff_of_false (fun held => by cases held) fun other => other.1 same
    · next other => exact ⟨fun held => ⟨other, held⟩, fun held => held.2⟩
  | counted | unheard | left =>
    refine holder_same guarded rfl fun t => ?_
    rw [guards]
    split
    · next same =>
      rw [same, mine]
      simp only [apply_ite WorkerPhase.isWaking]
      exact ite_self _
    · rfl
  | _ =>
    refine holder_same guarded rfl fun t => ?_
    rw [guards]
    split
    · next same => rw [same, mine]; rfl
    · rfl

theorem waiters_caller (guarded : p.Guarded) {c : Nat} {phase : CallPhase κ}
    {next : Option (CallPhase κ)} (there : p.call? c = some phase)
    (turn : CallerTurn p c phase next q events) (d : Nat)
    (waiting : ((q.goOn c next).call? d).any CallPhase.isWaiting = true) :
    0 < (q.goOn c next).pending ∨
      ∃ w, ((q.goOn c next).phase? w).any WorkerPhase.isAnnouncing = true := by
  have pending : p.pending ≤ q.pending := by cases turn <;> simp
  have known : (p.call? d).any CallPhase.isWaiting = true ∨ 0 < p.pending := by
    rw [call?_caller there turn] at waiting
    split at waiting
    · next same =>
      cases turn with
      | tired some => exact .inr (Nat.pos_of_ne_zero some)
      | slept => exact .inl (by rw [same, there]; rfl)
      | abandoned | put | closed =>
        obtain ⟨later, known, waits⟩ := (Option.any_eq_true _ _).mp waiting
        rw [(Goal.idle_of_next known).2] at waits
        cases waits
      | _ => cases waiting
    · exact .inl waiting
  rw [goOn_pending]
  rcases known with before | some
  · rcases guarded.waiters d before with some | ⟨w, announcing⟩
    · exact .inl (Nat.lt_of_lt_of_le some pending)
    · exact .inr ⟨w, (any_phase?_caller rfl turn w).trans announcing⟩
  · exact .inl (Nat.lt_of_lt_of_le some pending)

/-- The worker that takes the last pending job off is the one that announces the drain, and a worker
on its way to do so stays on it until every sleeper is woken. -/
theorem announcing_worker {w : Nat} {worker new : Worker} {phase : WorkerPhase}
    (turn : WorkerTurn p w worker phase new q events) (quiet : phase.isWaking = false) :
    (0 < p.pending → 0 < q.pending ∨ new.phase.isAnnouncing = true) ∧
      (phase.isAnnouncing = true → new.phase.isAnnouncing = true) := by
  cases turn with
  | releasedLast => exact ⟨fun _ => .inr rfl, fun impossible => by cases impossible⟩
  | releasedExit more | released more =>
    refine ⟨fun some => .inl ?_, fun impossible => by cases impossible⟩
    simp only
    omega
  | locked => exact ⟨.inl, fun _ => rfl⟩
  | wokeExit | woke => cases quiet
  | _ => exact ⟨.inl, fun impossible => by cases impossible⟩

theorem waiters_worker (guarded : p.Guarded) {w : Nat} {worker new : Worker}
    (there : p.worker? w = some worker)
    (turn : WorkerTurn p w worker worker.phase new q events) (d : Nat)
    (waiting : ((q.setWorker w new).call? d).any CallPhase.isWaiting = true) :
    0 < (q.setWorker w new).pending ∨
      ∃ v, ((q.setWorker w new).phase? v).any WorkerPhase.isAnnouncing = true := by
  have phases := phase?_worker there turn
  have mine : p.phase? w = some worker.phase := phase?_of_worker? there
  cases waking : worker.phase.isWaking with
  | true =>
    -- every sleeper was woken, and nobody but this worker holds the lock
    have held : p.guards (.worker w) = true := by simp only [guards, mine, Option.any_some, waking]
    obtain ⟨phase, found, waits⟩ := (Option.any_eq_true _ _).mp waiting
    have woken : (q.setWorker w new).call? d = (p.call? d).map CallPhase.woken := by
      generalize worker.phase = phase at turn waking
      cases turn with
      | wokeExit | woke => exact call?_wakeWaiters p d
      | _ => cases waking
    rw [woken] at found
    obtain ⟨old, before, rfl⟩ := Option.map_eq_some_iff.mp found
    have other : p.guards (.caller d) = true := by
      simp only [guards, before, Option.any_some]
      cases old <;> first | rfl | cases waits
    have same := ((guarded.holder _).mpr held).symm.trans ((guarded.holder _).mpr other)
    cases same
  | false =>
    have calls : q.calls = p.calls := by
      rcases calls_of_workerTurn turn with same | ⟨_, ticket, impossible⟩
      · exact same
      · rw [impossible] at waking
        cases waking
    have before : (p.call? d).any CallPhase.isWaiting = true := by
      simpa only [call?, setWorker_calls, calls] using waiting
    obtain ⟨pending, stays⟩ := announcing_worker turn waking
    have here : new.phase.isAnnouncing = true →
        ∃ v, ((q.setWorker w new).phase? v).any WorkerPhase.isAnnouncing = true := by
      intro announcing
      exact ⟨w, by rw [phases, if_pos rfl]; exact announcing⟩
    rcases guarded.waiters d before with some | ⟨v, announcing⟩
    · exact (pending some).imp_right here
    · by_cases same : v = w
      · rw [same, mine] at announcing
        exact .inr (here (stays announcing))
      · exact .inr ⟨v, by rw [phases, if_neg same]; exact announcing⟩

theorem guarded_turn (guarded : p.Guarded) (turn : p.Turn events q) : q.Guarded := by
  cases turn with
  | @called c call _ _ free _ =>
    have table := call?_called p call.phase free
    have idle : ∀ (f : CallPhase κ → Bool), f call.phase = false → ∀ d,
        (({ p with calls := p.calls ++ [(c, call.phase)] } : Pool κ).call? d).any f =
          (p.call? d).any f := by
      intro f none d
      rw [table]
      split
      · next same => rw [same, free, Option.any_some, none]; rfl
      · rfl
    constructor
    · refine holder_same guarded rfl fun t => ?_
      cases t with
      | caller d => exact idle _ (by cases call <;> rfl) d
      | worker w => rfl
    · intro d waiting
      exact guarded.waiters d ((idle _ (by cases call <;> rfl) d).symm.trans waiting)
  | @dropped c _ _ empty =>
    have idle : ∀ (f : CallPhase κ → Bool), f (.closing .drop) = false → ∀ d,
        (({ p with calls := [(c, .closing .drop)], dropped := true } : Pool κ).call? d).any f =
          (p.call? d).any f := by
      intro f none d
      simp only [call?, empty, List.lookup_cons, List.lookup_nil]
      split
      · simp [none]
      · rfl
    constructor
    · refine holder_same guarded rfl fun t => ?_
      cases t with
      | caller d => exact idle _ rfl d
      | worker w => rfl
    · intro d waiting
      exact guarded.waiters d ((idle _ rfl d).symm.trans waiting)
  | caller there made => exact ⟨holder_caller guarded there made, waiters_caller guarded there made⟩
  | worker there made => exact ⟨holder_worker guarded there made, waiters_worker guarded there made⟩
  | dozed => exact ⟨guarded.holder, guarded.waiters⟩

end Pool

end Spool
