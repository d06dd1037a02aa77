import Spool.Proofs.Pool.Invariant

/-!
Who took what from the queue. A worker takes terminations last, and one only; so as many have been
taken as workers have stopped, and when all have, the last job taken was a termination.
-/

namespace Spool

variable {κ : Type}

/-- A termination comes last, and nowhere else. -/
def StopsLast (tickets : List Ticket) : Prop :=
  ∃ front last, tickets = front ++ [last] ∧ last.job.isTermination = true ∧
    ∀ ticket ∈ front, ticket.job.isTermination = false

namespace Pool

variable {p q : Pool κ} {events more : List (Event κ)}

/-- What a worker in this phase, or one that is not there yet, has taken. -/
def Took (tickets : List Ticket) : Option WorkerPhase → Prop
  | none => tickets = []
  | some phase =>
    if phase.isStopped then StopsLast tickets
    else ∀ ticket ∈ tickets, ticket.job.isTermination = false

structure Removed (events : List (Event κ)) (p : Pool κ) : Prop where
  took : ∀ w, Took (removedBy w events) (p.phase? w)
  stopped : tally Ticket.stops (removedTickets events) = p.workerSum stopWeight
  last : p.workerSum stopWeight = p.workers.length → p.workers ≠ [] → ∃ front ticket,
    removedTickets events = front ++ [ticket] ∧ ticket.job.isTermination = true

theorem removed_new (size : PoolSize) : Removed [] (new size : Pool κ) :=
  ⟨fun _ => rfl, rfl, fun _ some => absurd rfl some⟩

theorem removed_of_same (removed : Removed events p)
    (heard : ∀ w, removedBy w more = []) (silent : removedTickets more = [])
    (took : ∀ w tickets, Took tickets (p.phase? w) → Took tickets (q.phase? w))
    (stops : q.workerSum stopWeight = p.workerSum stopWeight)
    (workers : q.workers.length = p.workers.length ∨ q.workerSum stopWeight < q.workers.length) :
    Removed (events ++ more) q := by
  refine ⟨fun w => ?_, ?_, fun all some => ?_⟩
  · rw [removedBy_append, heard, List.append_nil]
    exact took w _ (removed.took w)
  · rw [removedTickets_append, silent, List.append_nil, stops]
    exact removed.stopped
  · rcases workers with same | fewer
    · rw [removedTickets_append, silent, List.append_nil]
      refine removed.last (stops ▸ same ▸ all) fun none => some ?_
      rw [none] at same
      exact List.length_eq_zero_iff.mp same
    · exact absurd all (Nat.ne_of_lt fewer)

theorem removed_caller (removed : Removed events p) {c : Nat} {phase : CallPhase κ}
    {next : Option (CallPhase κ)} (turn : CallerTurn p c phase next q more) :
    Removed (events ++ more) (q.goOn c next) := by
  have stops : (q.goOn c next).workerSum stopWeight = p.workerSum stopWeight := by
    cases turn <;> simp [workerSum, stopWeight, WorkerPhase.isStopped]
  have few : p.workerSum stopWeight ≤ p.workers.length := workerSum_le stopWeight_le_one
  refine removed_of_same removed (fun w => ?_) ?_ (fun w tickets took => ?_) stops ?_
  · cases turn <;> simp [Event.removedBy?]
  · cases turn <;> simp [Event.removed?]
  · rcases workers_of_callerTurn turn with same | ⟨_, started⟩
    · simpa only [phase?, worker?, goOn_workers, same] using took
    · simp only [phase?, worker?, goOn_workers, started]
      rw [phase?_started]
      split
      · next new =>
        have none : p.phase? w = none := by
          simp [phase?, worker?, new]
        rw [none] at took
        intro ticket member
        rw [show tickets = [] from took] at member
        cases member
      · exact took
  · rcases workers_of_callerTurn turn with same | ⟨_, started⟩
    · exact .inl (by rw [goOn_workers, same])
    · refine .inr ?_
      rw [stops, goOn_workers, started, List.length_append, List.length_singleton]
      omega

theorem isStopped_worker {w : Nat} {worker new : Worker} {phase : WorkerPhase}
    (turn : WorkerTurn p w worker phase new q more) (busy : phase ≠ .fetching) :
    new.phase.isStopped = phase.isStopped ∧ removedTickets more = [] ∧
      ∀ v, removedBy v more = [] := by
  cases turn with
  | stopped | fetched => exact absurd rfl busy
  | pushed => exact ⟨Job.isTermination_settle _ _, rfl, fun _ => rfl⟩
  | counted | unheard | left =>
    refine ⟨?_, rfl, fun _ => rfl⟩
    simp only [apply_ite WorkerPhase.isStopped]
    exact ite_self _
  | releasedExit _ kind | wokeExit kind => exact ⟨kind.symm, rfl, fun _ => rfl⟩
  | released _ kind | woke kind => exact ⟨kind.symm, rfl, fun _ => rfl⟩
  | _ => exact ⟨rfl, rfl, fun _ => rfl⟩

theorem took_append {tickets : List Ticket} {ticket : Ticket} {phase : WorkerPhase}
    (before : ∀ other ∈ tickets, other.job.isTermination = false)
    (same : phase.isStopped = ticket.job.isTermination) :
    Took (tickets ++ [ticket]) (some phase) := by
  simp only [Took]
  split
  · next stopped => exact ⟨tickets, ticket, rfl, same.symm.trans stopped, before⟩
  · next going =>
    intro other member
    rcases List.mem_append.mp member with old | new
    · exact before other old
    · rw [List.mem_singleton.mp new]
      exact same.symm.trans (Bool.eq_false_iff.mpr going)

theorem removed_taken (removed : Removed events p) {w : Nat} {worker new : Worker}
    {ticket : Ticket} (there : p.worker? w = some worker) (idle : worker.phase = .fetching)
    (same : q.workers = p.workers) (kind : new.phase.isStopped = ticket.job.isTermination)
    (taken : removedTickets more = [ticket])
    (byThis : ∀ v, removedBy v more = if w = v then [ticket] else []) :
    Removed (events ++ more) (q.setWorker w new) := by
  have phases : ∀ v, (q.setWorker w new).phase? v =
      if v = w then some new.phase else p.phase? v := by
    intro v
    simp only [phase?, worker?_setWorker there same]
    split <;> rfl
  have stops := workerSum_setWorker stopWeight there same new
  have none : stopWeight worker.phase = 0 := by rw [idle]; rfl
  have this : stopWeight new.phase = ticket.stops := congrArg Bool.toNat kind
  refine ⟨fun v => ?_, ?_, fun all _ => ?_⟩
  · rw [removedBy_append, byThis, phases]
    by_cases here : v = w
    · subst here
      rw [if_pos rfl, if_pos rfl]
      have before := removed.took v
      rw [phase?_of_worker? there, idle] at before
      exact took_append before kind
    · rw [if_neg here, if_neg (Ne.symm here), List.append_nil]
      exact removed.took v
  · rw [removedTickets_append, taken, tally_append, removed.stopped]
    simp only [tally_cons, tally_nil]
    omega
  · refine ⟨removedTickets events, ticket, by rw [removedTickets_append, taken], ?_⟩
    -- were the job no termination, this worker would not have stopped
    cases stop : ticket.job.isTermination with
    | true => rfl
    | false =>
      have here : (q.setWorker w new).phase? w = some new.phase := by rw [phases, if_pos rfl]
      obtain ⟨found, listed, phase⟩ := worker?_of_phase? here
      have one := eq_one_of_tally (fun worker : Worker => stopWeight worker.phase)
        (fun worker => stopWeight_le_one worker.phase) all (List.mem_of_getElem? listed)
      rw [phase, stopWeight, kind, stop] at one
      cases one

theorem removed_worker (removed : Removed events p) {w : Nat} {worker new : Worker}
    (there : p.worker? w = some worker)
    (turn : WorkerTurn p w worker worker.phase new q more) :
    Removed (events ++ more) (q.setWorker w new) := by
  have phases := phase?_worker there turn
  have stops := workerSum_setWorker stopWeight there (frame_of_workerTurn turn).2 new
  have workers := (frame_of_workerTurn turn).2
  have known := phase?_of_worker? there
  by_cases idle : worker.phase = .fetching
  · rw [idle] at turn
    cases turn with
    | stopped _ none =>
      refine removed_taken removed there idle rfl rfl rfl fun v => ?_
      simp only [removedBy_cons, Event.removedBy?, removedBy_nil, List.append_nil]
      split <;> rfl
    | fetched _ some =>
      refine removed_taken removed there idle rfl rfl rfl fun v => ?_
      simp only [removedBy_cons, Event.removedBy?, removedBy_nil, List.append_nil]
      split <;> rfl
  · obtain ⟨same, silent, heard⟩ := isStopped_worker turn idle
    have weight : stopWeight new.phase = stopWeight worker.phase := congrArg Bool.toNat same
    refine removed_of_same removed heard silent (fun v tickets took => ?_) (by omega) (.inl ?_)
    · rw [phases]
      split
      · next here =>
        rw [here, known] at took
        simp only [Took] at took ⊢
        rw [same]
        exact took
      · exact took
    · rw [setWorker_workers, List.length_set, workers]

theorem removed_turn (removed : Removed events p) (turn : p.Turn more q) :
    Removed (events ++ more) q := by
  cases turn with
  | called | dropped | dozed =>
    exact removed_of_same removed (fun _ => rfl) rfl (fun _ _ took => took) rfl (.inl rfl)
  | caller _ made => exact removed_caller removed made
  | worker there made => exact removed_worker removed there made

theorem Run.removed {size : PoolSize} (run : Run (.new size) events p) : Removed events p :=
  run.induct (removed_new size) removed_turn

end Pool

end Spool
