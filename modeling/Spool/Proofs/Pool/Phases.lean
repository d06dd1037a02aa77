import Spool.Proofs.Job
import Spool.Proofs.Pool.Stages

/-!
Which jobs can be in which phase. What waits to be executed has no result yet, and terminations
part from other jobs where a job is executed, where a callback runs and where workers leave.
-/

namespace Spool

variable {κ : Type}

def Goal.isSubmit : Goal → Bool
  | .submit => true
  | .close | .drop | .abandon _ => false

/-- A submission schedules one job with work in it; every other goal schedules terminations. -/
def CallPhase.Proper : CallPhase κ → Prop
  | .counting job more goal =>
    job.IsFresh ∧ job.isTermination = !goal.isSubmit ∧ (goal.isSubmit = true → more = 0)
  | .putting more goal => goal.isSubmit = true → more = 0
  | .closing goal => goal.isSubmit = false
  | _ => True

def WorkerPhase.Proper : WorkerPhase → Prop
  | .pushing ticket => ticket.job.IsFresh ∧ ticket.job.isTermination = false
  | .counting ticket _ | .countingFailure ticket | .notifying ticket =>
    ticket.job.isTermination = false
  | .leaving ticket | .tearing ticket | .tallying ticket => ticket.job.isTermination = true
  | _ => True

theorem Goal.proper_of_next {goal : Goal} {more : Nat} {phase : CallPhase κ}
    (fits : goal.isSubmit = true → more = 0) (next : goal.next more = some phase) :
    phase.Proper := by
  cases more with
  | zero =>
    cases goal with
    | submit | close => cases next
    | drop | abandon error => cases next; trivial
  | succ more =>
    cases next
    cases goal with
    | submit => cases fits rfl
    | close | drop | abandon error => exact ⟨trivial, rfl, fun impossible => by cases impossible⟩

theorem CallPhase.proper_woken {phase : CallPhase κ} (proper : phase.Proper) :
    (Pool.CallPhase.woken phase).Proper := by
  cases phase <;> exact proper

theorem Call.proper_phase (call : Call κ) : call.phase.Proper := by
  cases call <;> first | rfl | trivial

namespace Pool

structure Proper (p : Pool κ) : Prop where
  calls : ∀ c phase, p.call? c = some phase → phase.Proper
  workers : ∀ w worker, p.worker? w = some worker → worker.phase.Proper
  items : ∀ ticket ∈ p.queue.items, ticket.job.IsFresh
  putters : ∀ putter ∈ p.queue.putters, putter.item.job.IsFresh

theorem worker?_setWorker {p q : Pool κ} {w : Nat} {worker : Worker}
    (there : p.worker? w = some worker) (same : q.workers = p.workers) (new : Worker) (v : Nat) :
    (q.setWorker w new).worker? v = if v = w then some new else p.worker? v := by
  have inside : w < p.workers.length := (List.getElem?_eq_some_iff.mp there).1
  simp only [worker?, setWorker_workers, same, List.getElem?_set]
  by_cases here : w = v
  · subst here; simp [inside]
  · simp [here, Ne.symm here]

theorem worker?_worker {p q : Pool κ} {w : Nat} {worker new : Worker} {phase : WorkerPhase}
    {events : List (Event κ)} (there : p.worker? w = some worker)
    (turn : WorkerTurn p w worker phase new q events) (v : Nat) :
    (q.setWorker w new).worker? v = if v = w then some new else p.worker? v :=
  worker?_setWorker there (frame_of_workerTurn turn).2 new v

theorem workers_of_callerTurn {p q : Pool κ} {c : Nat} {phase : CallPhase κ}
    {next : Option (CallPhase κ)} {events : List (Event κ)}
    (turn : CallerTurn p c phase next q events) :
    q.workers = p.workers ∨
      phase.isStarting = true ∧ q.workers = p.workers ++ [({} : Worker)] := by
  cases turn with
  | started => exact .inr ⟨rfl, rfl⟩
  | _ => exact .inl rfl

theorem mem_of_samePutters {q r : Queue Thread Ticket} (same : q.SamePutters r)
    {putter : Putter Thread Ticket} (member : putter ∈ r.putters) :
    ∃ old ∈ q.putters, old.thread = putter.thread ∧ old.item = putter.item := by
  have paired : (putter.thread, putter.item) ∈ r.putters.map fun p => (p.thread, p.item) :=
    List.mem_map.mpr ⟨putter, member, rfl⟩
  rw [same] at paired
  obtain ⟨old, known, pair⟩ := List.mem_map.mp paired
  exact ⟨old, known, congrArg Prod.fst pair, congrArg Prod.snd pair⟩

theorem proper_new (size : PoolSize) : (new size : Pool κ).Proper := by
  refine ⟨?_, ?_, ?_, ?_⟩
  · intro c phase there
    have member := mem_of_call? there
    cases List.mem_singleton.mp member
    trivial
  · intro w worker there
    cases there
  · intro ticket member
    cases member
  · intro putter member
    cases member

theorem proper_calls_caller {p q : Pool κ} (proper : p.Proper) {c : Nat} {phase : CallPhase κ}
    {next : Option (CallPhase κ)} {events : List (Event κ)} (there : p.call? c = some phase)
    (turn : CallerTurn p c phase next q events) :
    ∀ after, next = some after → after.Proper := by
  have before := proper.calls c phase there
  intro after later
  cases turn with
  | abandoned => exact Goal.proper_of_next (fun impossible => by cases impossible) later
  | made =>
    cases later
    exact ⟨(Job.isFresh_submission _ _).1, (Job.isFresh_submission _ _).2, fun _ => rfl⟩
  | counted =>
    cases later
    exact before.2.2
  | put => exact Goal.proper_of_next before later
  | closed =>
    refine Goal.proper_of_next (fun submit => ?_) later
    rw [show _ = false from before] at submit
    cases submit
  | refused | late | allJoined | drained | taken | registered | cleared | switched | built =>
    cases later
  | _ => cases later; trivial

theorem items_caller {p q : Pool κ} (proper : p.Proper) {c : Nat} {phase : CallPhase κ}
    {next : Option (CallPhase κ)} {events : List (Event κ)}
    (turn : CallerTurn p c phase next q events) :
    ∀ ticket ∈ q.queue.items, ticket.job.IsFresh := by
  cases turn with
  | put found =>
    intro ticket member
    simp only [Queue.wakeGetter_items, Queue.append_items, List.mem_append,
      List.mem_singleton] at member
    rcases member with old | rfl
    · exact proper.items ticket old
    · exact proper.putters _ (Queue.mem_of_putter? found).1
  | _ => exact proper.items

theorem putters_caller {p q : Pool κ} (proper : p.Proper) {c : Nat} {phase : CallPhase κ}
    {next : Option (CallPhase κ)} {events : List (Event κ)} (there : p.call? c = some phase)
    (turn : CallerTurn p c phase next q events) :
    ∀ putter ∈ q.queue.putters, putter.item.job.IsFresh := by
  cases turn with
  | counted =>
    intro putter member
    simp only [Queue.beginPut_putters, List.mem_append, List.mem_singleton] at member
    rcases member with old | rfl
    · exact proper.putters putter old
    · exact (proper.calls c _ there).1
  | put =>
    intro putter member
    simp only [Queue.wakeGetter_putters, Queue.append_putters] at member
    exact proper.putters putter (List.mem_filter.mp member).1
  | _ => exact proper.putters

theorem queue_worker {p q : Pool κ} (proper : p.Proper) {w : Nat} {worker new : Worker}
    {phase : WorkerPhase} {events : List (Event κ)}
    (turn : WorkerTurn p w worker phase new q events) :
    (∀ ticket ∈ q.queue.items, ticket.job.IsFresh) ∧
      ∀ putter ∈ q.queue.putters, putter.item.job.IsFresh := by
  cases turn with
  | stopped items | fetched items =>
    constructor
    · intro ticket member
      rw [Queue.remove_items] at member
      exact proper.items ticket (items ▸ List.mem_cons_of_mem _ member)
    · intro putter member
      obtain ⟨old, known, _, item⟩ := mem_of_samePutters (Queue.samePutters_remove _ _ _) member
      exact item ▸ proper.putters old known
  | _ => exact ⟨proper.items, proper.putters⟩

theorem phase_worker {p q : Pool κ} (proper : p.Proper) {w : Nat} {worker new : Worker}
    {events : List (Event κ)} (there : p.worker? w = some worker)
    (turn : WorkerTurn p w worker worker.phase new q events) : new.phase.Proper := by
  have before := proper.workers w worker there
  generalize worker.phase = phase at before turn
  cases turn with
  | fetched items kind =>
    refine ⟨proper.items _ ?_, Job.isTermination_of_push? kind⟩
    rw [items]
    exact List.mem_cons_self
  | pushed => exact (Job.isTermination_settle _ _).trans before.2
  | @counted ticket success =>
    cases success with
    | true => trivial
    | false => exact before
  | notified _ told => exact Job.isTermination_of_notice? told
  | unheard =>
    dsimp only
    split
    · next termination => exact termination
    · trivial
  | left =>
    dsimp only
    split
    · exact before
    · trivial
  | tore => exact before
  | _ => trivial

theorem proper_doze {p : Pool κ} (proper : p.Proper) {queue : Queue Thread Ticket}
    (doze : p.queue.Doze queue) : ({ p with queue } : Pool κ).Proper := by
  refine ⟨proper.calls, proper.workers, ?_, ?_⟩
  · rw [Queue.items_of_doze doze]
    exact proper.items
  · intro putter member
    have same := Queue.samePutters_of_doze doze
    obtain ⟨old, known, _, item⟩ := mem_of_samePutters same member
    exact item ▸ proper.putters old known

theorem proper_turn {p q : Pool κ} {events : List (Event κ)} (proper : p.Proper)
    (turn : p.Turn events q) : q.Proper := by
  cases turn with
  | called _ _ free _ =>
    refine ⟨?_, proper.workers, proper.items, proper.putters⟩
    intro d phase there
    rw [call?_called p _ free] at there
    split at there
    · cases there
      exact Call.proper_phase _
    · exact proper.calls d phase there
  | dropped =>
    refine ⟨?_, proper.workers, proper.items, proper.putters⟩
    intro d phase there
    cases List.mem_singleton.mp (mem_of_call? there)
    rfl
  | caller there made =>
    refine ⟨?_, ?_, ?_, ?_⟩
    · intro d phase known
      rw [call?_caller there made] at known
      split at known
      · exact proper_calls_caller proper there made phase known
      · exact proper.calls d phase known
    · intro w worker known
      rcases workers_of_callerTurn made with same | ⟨_, more⟩
      · simp only [worker?, goOn_workers, same] at known
        exact proper.workers w worker known
      · simp only [worker?, goOn_workers, more] at known
        rcases List.mem_append.mp (List.mem_of_getElem? known) with old | new
        · obtain ⟨v, there⟩ := List.getElem?_of_mem old
          exact proper.workers v worker there
        · cases List.mem_singleton.mp new
          trivial
    · rw [goOn_queue]
      exact items_caller proper made
    · rw [goOn_queue]
      exact putters_caller proper there made
  | worker there made =>
    refine ⟨?_, ?_, (queue_worker proper made).1, (queue_worker proper made).2⟩
    · intro d phase known
      rcases call?_worker made d with same | woken
      · exact proper.calls d phase (same ▸ known)
      · rw [woken] at known
        obtain ⟨old, before, rfl⟩ := Option.map_eq_some_iff.mp known
        exact CallPhase.proper_woken (proper.calls d old before)
    · intro v worker known
      rw [worker?_worker there made] at known
      split at known
      · cases known
        exact phase_worker proper there made
      · exact proper.workers v worker known
  | dozed doze => exact proper_doze proper doze

end Pool

end Spool
