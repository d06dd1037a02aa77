import Spool.Proofs.Pool.Progress

/-!
Nobody who waits for the drain is forgotten. Jobs are taken off the pending ones without the lock
that the sleepers sleep under, and more jobs may be counted meanwhile; still, whenever nothing is
pending and somebody sleeps, the worker that took off the last job has yet to wake them.
-/

namespace Spool

variable {κ : Type}

namespace Pool

variable {p q : Pool κ} {events more : List (Event κ)} {size : PoolSize}

/-- The worker is between taking the last pending job off and waking those who wait. -/
def Announces (p : Pool κ) (w : Nat) (ticket : Ticket) : Prop :=
  p.phase? w = some (.lastOut ticket) ∨ p.phase? w = some (.waking ticket)

/-- With the worker's last release nothing was pending, and it has not woken anybody since. -/
structure Owes (size : PoolSize) (events : List (Event κ)) (p : Pool κ) (w : Nat)
    (ticket : Ticket) : Prop where
  announces : p.Announces w ticket
  last : ∃ before after m, events = before ++ .released w ticket :: after ∧
    Run (.new size) (before ++ [.released w ticket]) m ∧ m.pending = 0 ∧ Run m after p ∧
      ∀ other, .released w other ∉ after

theorem exists_announces {w : Nat} (way : (p.phase? w).any WorkerPhase.isAnnouncing = true) :
    ∃ ticket, p.Announces w ticket := by
  obtain ⟨phase, there, announcing⟩ := (Option.any_eq_true _ _).mp way
  cases phase with
  | lastOut ticket => exact ⟨ticket, .inl there⟩
  | waking ticket => exact ⟨ticket, .inr there⟩
  | _ => cases announcing

theorem announces_caller {c : Nat} {phase : CallPhase κ} {next : Option (CallPhase κ)} {w : Nat}
    {ticket : Ticket} (turn : CallerTurn p c phase next q more)
    (announces : (q.goOn c next).Announces w ticket) : p.Announces w ticket := by
  rcases workers_of_callerTurn turn with same | ⟨_, started⟩
  · simpa only [Announces, phase?, worker?, goOn_workers, same] using announces
  · simp only [Announces, phase?, worker?, goOn_workers, started] at announces
    rw [phase?_started] at announces
    split at announces
    · rcases announces with impossible | impossible <;> cases impossible
    · exact announces

theorem not_released_caller {c : Nat} {phase : CallPhase κ} {next : Option (CallPhase κ)} {w : Nat}
    {ticket : Ticket} (turn : CallerTurn p c phase next q more) : .released w ticket ∉ more := by
  cases turn <;> simp [not_heard]

theorem released_by {v w : Nat} {worker new : Worker} {phase : WorkerPhase} {ticket : Ticket}
    (turn : WorkerTurn p v worker phase new q more) (member : .released w ticket ∈ more) :
    w = v := by
  cases turn <;> simp_all

theorem announces_worker {w : Nat} {worker new : Worker} {phase : WorkerPhase} {ticket : Ticket}
    (turn : WorkerTurn p w worker phase new q more)
    (announces : new.phase = .lastOut ticket ∨ new.phase = .waking ticket) :
    more = [.released w ticket] ∧ q.pending = 0 ∨ phase = .lastOut ticket ∧ more = [] := by
  cases turn with
  | releasedLast one =>
    rcases announces with same | impossible
    · cases same
      exact .inl ⟨rfl, by simp [one]⟩
    · cases impossible
  | locked =>
    rcases announces with impossible | same
    · cases impossible
    · cases same
      exact .inr ⟨rfl, rfl⟩
  | counted | unheard | left =>
    dsimp only at announces
    split at announces <;> rcases announces with impossible | impossible <;> cases impossible
  | _ => rcases announces with impossible | impossible <;> cases impossible

theorem announces_turn {w : Nat} {ticket : Ticket} (turn : p.Turn more q)
    (announces : q.Announces w ticket) :
    more = [.released w ticket] ∧ q.pending = 0 ∨
      p.Announces w ticket ∧ ∀ other, .released w other ∉ more := by
  cases turn with
  | called | dropped => exact .inr ⟨announces, fun other => by simp⟩
  | dozed => exact .inr ⟨announces, fun other => List.not_mem_nil⟩
  | caller _ made =>
    exact .inr ⟨announces_caller made announces, fun other => not_released_caller made⟩
  | @worker v worker new _ _ there made =>
    simp only [Announces, phase?_worker there made] at announces
    by_cases same : w = v
    · subst same
      simp only [if_true, Option.some.injEq] at announces
      rcases announces_worker made announces with last | ⟨before, silent⟩
      · exact .inl last
      · right
        constructor
        · exact .inl (before ▸ phase?_of_worker? there)
        · simp [silent]
    · simp only [same, if_false] at announces
      exact .inr ⟨announces, fun other member => same (released_by made member)⟩

theorem Run.owes {w : Nat} {ticket : Ticket} (run : Run (.new size) events p)
    (announces : p.Announces w ticket) : Owes size events p w ticket := by
  refine ⟨announces, ?_⟩
  -- the release was a turn before, or it is the last turn
  induction run with
  | start => rcases announces with impossible | impossible <;> cases impossible
  | @next events p q move more run made ih =>
    rcases announces_turn (turn_of_step? made) announces with ⟨rfl, none⟩ | ⟨before, silent⟩
    · exact ⟨events, [], q, rfl, run.next made, none, .start, fun _ => List.not_mem_nil⟩
    · obtain ⟨first, after, m, rfl, begun, none, goes, kept⟩ := ih before
      refine ⟨first, after ++ more, m, by simp, begun, none, goes.next made, ?_⟩
      intro other member
      rcases List.mem_append.mp member with old | new
      · exact kept other old
      · exact silent other new

theorem asleep_of_wakeWaiters (c : Nat) : p.wakeWaiters.call? c ≠ some .asleep := by
  rw [call?_wakeWaiters]
  cases p.call? c with
  | none => exact fun impossible => by cases impossible
  | some phase =>
    intro same
    cases phase <;> cases same

/-- What a worker does that holds the drain lock wakes everybody. -/
theorem none_asleep_of_waking {w : Nat} {ticket : Ticket}
    (waking : p.phase? w = some (.waking ticket)) (made : p.step? (.worker w) = some (q, more))
    (c : Nat) : q.call? c ≠ some .asleep := by
  obtain ⟨worker, there, phase⟩ := worker?_of_phase? waking
  simp only [step?, workerStep?, there, phase, nextRound] at made
  have woken := asleep_of_wakeWaiters (p := { p with drainLock := none }) c
  split at made <;> cases made
  · exact woken
  · exact woken

/-- Who sleeps until the drain has something to wait for, or somebody who will wake it. -/
structure DrainAnnounced (size : PoolSize) (events : List (Event κ)) (p : Pool κ) : Prop where
  awaited : ∀ c, p.call? c = some .asleep →
    0 < p.pending ∨ ∃ w ticket, Owes size events p w ticket
  woken : ∀ w ticket q more, p.phase? w = some (.waking ticket) →
    p.step? (.worker w) = some (q, more) → ∀ c, q.call? c ≠ some .asleep

theorem Run.drain_announced (run : Run (.new size) events p) : DrainAnnounced size events p where
  awaited c there := by
    have waits : (p.call? c).any CallPhase.isWaiting = true := by
      rw [there]
      rfl
    rcases run.sound.guarded.waiters c waits with some | ⟨w, way⟩
    · exact .inl some
    · obtain ⟨ticket, announces⟩ := exists_announces way
      exact .inr ⟨w, ticket, run.owes announces⟩
  woken _ _ _ _ waking made := none_asleep_of_waking waking made

/-- A wait that falls asleep behind the only job, which is released then. -/
def lastReleased : List (Move Nat) :=
  [.start 0 (.ok ()), .caller 0 none, .begin 0 (.submit (.transfer "in" "out")), .caller 0 none,
    .caller 0 none, .caller 0 none, .caller 0 none, .worker 0, .begin 1 .waitForUpload,
    .caller 1 none, .caller 1 none, .caller 1 none, .pushed 0 (.stored ""), .worker 0, .worker 0,
    .worker 0, .worker 0, .worker 0]

theorem drain_announced_of_lastReleased : ∃ change : Change Nat,
    (Pool.new single).follow lastReleased = some change ∧ change.1.call? 1 = some .asleep ∧
      change.1.pending = 0 ∧ DrainAnnounced single change.2 change.1 := by
  have played : ((Pool.new single).follow lastReleased).any (fun change =>
      decide (change.1.call? 1 = some .asleep ∧ change.1.pending = 0)) = true := by
    decide
  obtain ⟨change, follows, both⟩ := (Option.any_eq_true _ _).mp played
  obtain ⟨asleep, none⟩ := of_decide_eq_true both
  exact ⟨change, follows, asleep, none, (Run.of_follow .start follows).drain_announced⟩

end Pool

end Spool
