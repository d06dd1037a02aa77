import Spool.Proofs.Pool.Calls

/-!
A call that has only begun is no more than an entry in the table of calls. Every other thread moves
as if the entry were not there, and leaves it alone.
-/

namespace Spool

variable {κ : Type}

namespace Pool

variable {p q : Pool κ} {events more : List (Event κ)} {c d : Nat}

/-- A change without the entry of a caller. -/
def without (c : Nat) (change : Change κ) : Change κ :=
  (change.1.endCall c, change.2)

/-- The caller that makes the move, if one does. -/
def Move.caller? : Move κ → Option Nat
  | .begin c _ | .start c _ | .caller c _ => some c
  | .worker _ | .pushed _ _ | .notified _ _ | .rouse _ => none

section Table

theorem filter_map_keys {α : Type} (f : Nat → α → α) (table : List (Nat × α)) (c : Nat) :
    (table.filter (·.1 ≠ c)).map (fun entry => (entry.1, f entry.1 entry.2)) =
      (table.map fun entry => (entry.1, f entry.1 entry.2)).filter (·.1 ≠ c) := by
  rw [List.filter_map]
  rfl

theorem setCall_calls (p : Pool κ) (d : Nat) (phase : CallPhase κ) :
    (p.setCall d phase).calls =
      p.calls.map fun call => (call.1, if call.1 = d then phase else call.2) := by
  refine List.map_congr_left fun call _ => ?_
  dsimp only
  split <;> rfl

theorem setCall_endCall (p : Pool κ) (c d : Nat) (phase : CallPhase κ) :
    (p.endCall c).setCall d phase = (p.setCall d phase).endCall c := by
  have table := filter_map_keys (fun e old => if e = d then phase else old) p.calls c
  have calls : ((p.endCall c).setCall d phase).calls = ((p.setCall d phase).endCall c).calls := by
    simp only [endCall, setCall_calls]
    exact table
  simp only [setCall, endCall] at calls ⊢
  rw [calls]

theorem endCall_comm (p : Pool κ) (c d : Nat) :
    (p.endCall c).endCall d = (p.endCall d).endCall c := by
  simp only [endCall, List.filter_filter, Bool.and_comm]

theorem goOn_endCall (p : Pool κ) (c d : Nat) (next : Option (CallPhase κ)) :
    (p.endCall c).goOn d next = (p.goOn d next).endCall c := by
  cases next with
  | none => exact endCall_comm p c d
  | some phase => exact setCall_endCall p c d phase

theorem wakeWaiters_endCall (p : Pool κ) (c : Nat) :
    (p.endCall c).wakeWaiters = p.wakeWaiters.endCall c := by
  have table := filter_map_keys (fun _ => CallPhase.woken) p.calls c
  have calls : (p.endCall c).wakeWaiters.calls = (p.wakeWaiters.endCall c).calls := by
    rw [wakeWaiters_calls]
    simp only [endCall, wakeWaiters_calls]
    exact table
  simp only [wakeWaiters, endCall] at calls ⊢
  rw [calls]

theorem call?_endCall_of_ne (apart : d ≠ c) : (p.endCall c).call? d = p.call? d := by
  rw [call?_endCall, if_neg apart]

end Table

section Calling

theorem openTransaction_endCall (p : Pool κ) (c d : Nat) (submission : Submission) :
    (p.endCall c).openTransaction d submission = without c (p.openTransaction d submission) := by
  unfold openTransaction
  change (if p.lifecycle.acceptsJobs then _ else _) = _
  split
  · exact congrArg (·, []) (setCall_endCall { p with lifecycle := .transactionOpen } c d _)
  · exact congrArg (·, _) (endCall_comm p c d)

theorem closeTransaction_endCall (p : Pool κ) (c d : Nat) (goal : Goal) :
    (p.endCall c).closeTransaction d goal = without c (p.closeTransaction d goal) := by
  unfold closeTransaction
  change (if p.lifecycle.acceptsJobs then _ else _) = _
  split
  · rw [terminations_eq, terminations_eq]
    exact congrArg (·, _) (goOn_endCall { p with lifecycle := .transactionClosed } c d _)
  · cases goal with
    | drop => exact congrArg (·, []) (setCall_endCall p c d _)
    | submit | close | abandon => exact congrArg (·, _) (endCall_comm p c d)

theorem put?_endCall (p : Pool κ) (c d n : Nat) (goal : Goal) (woken : Option Thread) :
    (p.endCall c).put? d n goal woken = (p.put? d n goal woken).map (without c) := by
  simp only [put?, show (p.endCall c).queue = p.queue from rfl]
  cases p.queue.putter? (.caller d) with
  | none => rfl
  | some putter =>
    cases p.queue.putTurn? (.caller d) woken with
    | none => rfl
    | some turn =>
      obtain ⟨queue, back⟩ := turn
      cases back with
      | false => rfl
      | true =>
        simp only [terminations_eq]
        exact congrArg (fun r => some (r, _)) (goOn_endCall { p with queue } c d _)

theorem join?_endCall (p : Pool κ) (c d next : Nat) (goal : Goal) :
    (p.endCall c).join? d next goal = (p.join? d next goal).map (without c) := by
  simp only [join?, show (p.endCall c).worker? next = p.worker? next from rfl]
  cases p.worker? next with
  | none =>
    cases goal <;> exact congrArg (fun r => some (r, _)) (endCall_comm p c d)
  | some worker =>
    dsimp only
    split
    · exact congrArg (fun r => some (r, _)) (setCall_endCall p c d _)
    · rfl

theorem startReply?_endCall (apart : d ≠ c) (reply : Except WorkerError Unit) :
    (p.endCall c).startReply? d reply = (p.startReply? d reply).map (without c) := by
  simp only [startReply?, call?_endCall_of_ne apart, show (p.endCall c).size = p.size from rfl]
  cases p.call? d with
  | none => rfl
  | some phase =>
    cases phase with
    | starting next =>
      by_cases more : next < p.size.workers
      · simp only [more, if_true, terminations_eq]
        cases reply with
        | ok =>
          exact congrArg (fun r : Pool κ => some ({ r with
            workers := p.workers ++ [({} : Worker)]
            queue := p.queue.beginGet (.worker next) }, _)) (setCall_endCall p c d _)
        | error error => exact congrArg (fun r => some (r, _)) (goOn_endCall p c d _)
      · simp only [more, if_false]
        rfl
    | _ => rfl

theorem callerStep?_endCall (apart : d ≠ c) (woken : Option Thread) :
    (p.endCall c).callerStep? d woken = (p.callerStep? d woken).map (without c) := by
  have finished : ∀ (r : Pool κ) (heard : List (Event κ)),
      some ((r.endCall c).endCall d, heard) = (some (r.endCall d, heard)).map (without c) :=
    fun r heard => congrArg (fun s => some (s, heard)) (endCall_comm r c d)
  have goes : ∀ (r : Pool κ) (next : CallPhase κ) (heard : List (Event κ)),
      some ((r.endCall c).setCall d next, heard) =
        (some (r.setCall d next, heard)).map (without c) :=
    fun r next heard => congrArg (fun s => some (s, heard)) (setCall_endCall r c d next)
  simp only [callerStep?, call?_endCall_of_ne apart]
  cases p.call? d with
  | none => rfl
  | some phase =>
    cases woken with
    | some thread => cases phase <;> first | rfl | exact put?_endCall p c d _ _ _
    | none =>
      simp only [Option.isSome_none, Bool.false_eq_true, if_false]
      cases phase with
      | starting next =>
        change (if next = p.size.workers then _ else _) =
          Option.map (without c) (if next = p.size.workers then _ else _)
        split
        · exact finished { p with lifecycle := .initialized } _
        · rfl
      | opening submission => exact congrArg some (openTransaction_endCall p c d submission)
      | making => exact goes p _ _
      | counting job =>
        exact goes { p with
          issued := p.issued + 1
          pending := p.pending + 1
          queue := p.queue.beginPut (.caller d) ⟨p.issued, job⟩ } _ _
      | putting n goal => exact put?_endCall p c d n goal none
      | closing goal => exact congrArg some (closeTransaction_endCall p c d goal)
      | joining next goal => exact join?_endCall p c d next goal
      | locking =>
        change (if p.drainLock.isNone then _ else _) =
          Option.map (without c) (if p.drainLock.isNone then _ else _)
        split
        · exact goes { p with drainLock := some (.caller d) } _ _
        · rfl
      | checking =>
        change (if p.pending = 0 then _ else _) =
          Option.map (without c) (if p.pending = 0 then _ else _)
        split
        · exact finished { p with drainLock := none } _
        · exact goes p _ _
      | dozing => exact goes { p with drainLock := none } _ _
      | asleep => rfl
      | registering callback =>
        change (if p.isNotifying then _ else if p.callback.isSome then _ else _) =
          Option.map (without c)
            (if p.isNotifying then _ else if p.callback.isSome then _ else _)
        split
        · rfl
        · split
          · exact finished p _
          · exact finished { p with callback := some callback } _
      | clearing =>
        change (if p.isNotifying then _ else _) =
          Option.map (without c) (if p.isNotifying then _ else _)
        split
        · rfl
        · exact finished { p with callback := none } _
      | switching on => exact finished { p with moveMode := on } _

end Calling

section Working

theorem nextRound_endCall (p : Pool κ) (c w : Nat) (worker : Worker) (ticket : Ticket) :
    (p.endCall c).nextRound w worker ticket = without c (p.nextRound w worker ticket) := by
  unfold nextRound
  split <;> rfl

theorem workerStep?_endCall (p : Pool κ) (c w : Nat) :
    (p.endCall c).workerStep? w = (p.workerStep? w).map (without c) := by
  simp only [workerStep?, show (p.endCall c).worker? w = p.worker? w from rfl]
  cases p.worker? w with
  | none => rfl
  | some worker =>
    obtain ⟨phase, executed, failed⟩ := worker
    cases phase with
    | fetching =>
      simp only [fetch?, show (p.endCall c).queue = p.queue from rfl]
      cases p.queue.getTurn? (.worker w) with
      | none => rfl
      | some turn =>
        obtain ⟨queue, got⟩ := turn
        cases got with
        | none => rfl
        | some ticket =>
          dsimp only
          split <;> rfl
    | dispatching ticket =>
      simp only [dispatch, show (p.endCall c).callback = p.callback from rfl]
      cases p.callback with
      | none => rfl
      | some callback => cases ticket.job.notice? <;> rfl
    | releasing ticket =>
      change (if p.pending = 1 then _ else _) =
        Option.map (without c) (if p.pending = 1 then _ else _)
      split
      · rfl
      · exact congrArg (fun r : Change κ => some (r.1, .released w ticket :: r.2))
          (nextRound_endCall { p with pending := p.pending - 1 } c w _ ticket)
    | lastOut ticket =>
      change (if p.drainLock.isNone then _ else _) =
        Option.map (without c) (if p.drainLock.isNone then _ else _)
      split <;> rfl
    | waking ticket =>
      have woken : ({ p.endCall c with drainLock := none }).wakeWaiters =
          ({ p with drainLock := none }).wakeWaiters.endCall c :=
        wakeWaiters_endCall { p with drainLock := none } c
      dsimp only
      rw [woken, nextRound_endCall]
      rfl
    | _ => rfl

theorem pushed?_endCall (p : Pool κ) (c w : Nat) (outcome : Outcome) :
    (p.endCall c).pushed? w outcome = (p.pushed? w outcome).map (without c) := by
  simp only [pushed?, show (p.endCall c).worker? w = p.worker? w from rfl]
  cases p.worker? w with
  | none => rfl
  | some worker =>
    obtain ⟨phase, executed, failed⟩ := worker
    cases phase <;> rfl

theorem notified?_endCall (p : Pool κ) (c w : Nat) (answer : Answer) :
    (p.endCall c).notified? w answer = (p.notified? w answer).map (without c) := by
  simp only [notified?, show (p.endCall c).worker? w = p.worker? w from rfl]
  cases p.worker? w with
  | none => rfl
  | some worker =>
    obtain ⟨phase, executed, failed⟩ := worker
    cases phase <;> rfl

theorem rouse?_endCall {phase : CallPhase κ} {thread : Thread} (there : p.call? c = some phase)
    (awake : phase ≠ .asleep) :
    (p.endCall c).rouse? thread = (p.rouse? thread).map (without c) := by
  simp only [rouse?, show (p.endCall c).queue = p.queue from rfl]
  cases p.queue.rouse? thread with
  | some queue => rfl
  | none =>
    cases thread with
    | worker => rfl
    | caller d =>
      by_cases same : d = c
      · subst same
        simp only [call?_endCall, if_pos, there]
        cases phase with
        | asleep => exact absurd rfl awake
        | _ => rfl
      · simp only [call?_endCall_of_ne same]
        cases p.call? d with
        | none => rfl
        | some phase =>
          cases phase with
          | asleep => exact congrArg (fun r => some (r, [])) (setCall_endCall p c d _)
          | _ => rfl

end Working

theorem begin?_endCall {phase : CallPhase κ} {call : Call κ} {change : Change κ}
    (there : p.call? c = some phase) (apart : d ≠ c) (made : p.begin? d call = some change) :
    (p.endCall c).begin? d call = some (without c change) := by
  have filled : ¬ p.calls.isEmpty := by
    intro empty
    have member := mem_of_call? there
    rw [List.isEmpty_iff.mp empty] at member
    cases member
  have entry : (p.calls ++ [(d, call.phase)]).filter (·.1 ≠ c) =
      p.calls.filter (·.1 ≠ c) ++ [(d, call.phase)] := by
    simp [apart]
  unfold begin? at made ⊢
  rw [call?_endCall_of_ne apart]
  change (if p.lifecycle = .uninitialized ∨ p.dropped ∨ (p.call? d).isSome then _ else _) = _
  split at made
  · cases made
  · next free =>
    rw [if_neg free]
    cases call with
    | drop =>
      cases made
    | _ =>
      cases made
      simp only [without, endCall, entry]

theorem step?_endCall {phase : CallPhase κ} {move : Move κ} {change : Change κ}
    (there : p.call? c = some phase) (awake : phase ≠ .asleep) (other : move.caller? ≠ some c)
    (made : p.step? move = some change) :
    (p.endCall c).step? move = some (without c change) := by
  have moved : ∀ {result other : Option (Change κ)}, other = result.map (without c) →
      result = some change → other = some (without c change) := by
    rintro _ _ rfl rfl
    rfl
  cases move with
  | begin d call => exact begin?_endCall there (fun same => other (congrArg some same)) made
  | start d reply =>
    exact moved (startReply?_endCall (fun same => other (congrArg some same)) reply) made
  | caller d woken =>
    exact moved (callerStep?_endCall (fun same => other (congrArg some same)) woken) made
  | worker w => exact moved (workerStep?_endCall p c w) made
  | pushed w outcome => exact moved (pushed?_endCall p c w outcome) made
  | notified w answer => exact moved (notified?_endCall p c w answer) made
  | rouse thread => exact moved (rouse?_endCall there awake) made

end Pool

end Spool
