import Spool.Proofs.Pool.Erasing
import Spool.Proofs.Pool.Forward

/-!
A call that is refused leaves no trace. Until it is refused it is only an entry in the table of
calls, and the other threads by themselves take the pool to the state it is found in afterwards.
-/

namespace Spool

variable {κ : Type}

/-- The call is refused once the transaction is closed. -/
def Call.needsOpen : Call κ → Bool
  | .submit _ | .endTransaction => true
  | _ => false

/-- The call found the transaction open. -/
def CallPhase.isAccepted : CallPhase κ → Bool
  | .making _ | .counting _ _ .submit | .counting _ _ .close | .putting _ .submit
  | .putting _ .close => true
  | _ => false

namespace Pool

variable {p q r : Pool κ} {events more : List (Event κ)} {c : Nat} {call : Call κ}

theorem Run.trans (run : Run p events q) (later : Run q more r) : Run p (events ++ more) r := by
  induction later with
  | start => rwa [List.append_nil]
  | next _ made ih => exact List.append_assoc .. ▸ ih.next made

theorem accepted_of_next {goal : Goal} {left : Nat} {later : CallPhase κ}
    (returns : goal = .submit ∨ goal = .close) (next : some later = goal.next left) :
    later.isAccepted = true := by
  cases left with
  | zero => rcases returns with rfl | rfl <;> cases next
  | succ left => rcases returns with rfl | rfl <;> cases next <;> rfl

theorem accepted_turn {phase : CallPhase κ} {next : Option (CallPhase κ)}
    (accepted : phase.isAccepted = true) (turn : CallerTurn p c phase next q more) :
    (∀ later, next = some later → later.isAccepted = true) ∧
      ∀ abort, .ended c (.aborted abort) ∉ more := by
  cases turn with
  | made => exact ⟨fun later known => by cases known; rfl, by simp⟩
  | @counted _ _ goal =>
    refine ⟨fun later known => ?_, by simp⟩
    cases known
    cases goal <;> first | rfl | cases accepted
  | @put left goal =>
    have returns : goal = .submit ∨ goal = .close := by
      cases goal <;> first | exact .inl rfl | exact .inr rfl | cases accepted
    refine ⟨fun later known => accepted_of_next returns known.symm, fun abort member => ?_⟩
    rcases List.mem_cons.mp member with impossible | heard
    · cases impossible
    · exact absurd heard (not_heard fun impossible => by cases impossible)
  | _ => cases accepted

/-- The first turn of a call that needs an open transaction finds it open, or ends the call and
changes nothing else. -/
theorem first_turn {next : Option (CallPhase κ)} (needs : call.needsOpen = true)
    (turn : CallerTurn p c call.phase next q more) :
    (∃ later, next = some later ∧ later.isAccepted = true) ∨
      p.lifecycle.acceptsJobs = false ∧ next = none ∧ q = p ∧
        ∃ request, more = [.ended c (.aborted (.wrongStage request p.lifecycle))] := by
  cases call with
  | submit submission =>
    cases turn with
    | opened => exact .inl ⟨_, rfl, rfl⟩
    | refused shut => exact .inr ⟨shut, rfl, rfl, _, rfl⟩
  | endTransaction =>
    cases turn with
    | closed =>
      obtain ⟨workers, pos⟩ := Nat.exists_eq_add_one.mpr p.size.workers_pos
      rw [pos]
      exact .inl ⟨_, rfl, rfl⟩
    | late shut => exact .inr ⟨shut, rfl, rfl, _, rfl⟩
  | _ => cases needs

theorem first_step {woken : Option Thread} (needs : call.needsOpen = true)
    (there : p.call? c = some call.phase) (made : p.callerStep? c woken = some (q, more)) :
    ∃ next r, CallerTurn p c call.phase next r more ∧ q = r.goOn c next := by
  simp only [callerStep?, there] at made
  cases woken with
  | some thread => cases call <;> first | cases needs; done | cases made
  | none =>
    cases call with
    | submit submission =>
      simp only [Call.phase, Option.isSome_none, Bool.false_eq_true, if_false, openTransaction]
        at made
      split at made <;> cases made
      · next accepts => exact ⟨_, _, .opened accepts, rfl⟩
      · next shut => exact ⟨_, _, .refused (Bool.eq_false_iff.mpr shut), rfl⟩
    | endTransaction =>
      simp only [Call.phase, Option.isSome_none, Bool.false_eq_true, if_false, closeTransaction,
        terminations_eq] at made
      split at made <;> cases made
      · next accepts => exact ⟨_, _, .closed accepts, rfl⟩
      · next shut =>
        have other : Goal.close ≠ .drop := fun impossible => by cases impossible
        exact ⟨_, _, .late (Bool.eq_false_iff.mpr shut) other, rfl⟩
    | _ => cases needs

theorem own_move {move : Move κ} (needs : call.needsOpen = true)
    (there : p.call? c = some call.phase) (own : move.caller? = some c)
    (made : p.step? move = some (q, more)) :
    ∃ next r, CallerTurn p c call.phase next r more ∧ q = r.goOn c next := by
  cases move with
  | begin d other =>
    cases own
    have taken : p.lifecycle = .uninitialized ∨ p.dropped = true ∨ (p.call? c).isSome = true :=
      .inr (.inr (by rw [there]; rfl))
    simp only [step?, begin?, if_pos taken] at made
    cases made
  | start d reply =>
    cases own
    simp only [step?, startReply?, there] at made
    cases call <;> cases made
  | caller d woken =>
    cases own
    exact first_step needs there made
  | _ => cases own

/-- As long as a call has not come to the transaction, the others get on without it. -/
theorem Run.without (needs : call.needsOpen = true) (there : p.call? c = some call.phase)
    (run : Run p events q) (inside : ∀ ending, .ended c ending ∉ events) :
    q.call? c = some call.phase ∧ Run (p.endCall c) events (q.endCall c) ∨
      ∃ phase, q.call? c = some phase ∧ phase.isAccepted = true := by
  have awake : call.phase ≠ .asleep := by
    cases call <;> exact fun impossible => by cases impossible
  have calm : CallPhase.woken call.phase = call.phase := by
    cases call <;> rfl
  -- until the caller's first turn, the pool is the one of the others, plus its entry
  induction run with
  | start => exact .inl ⟨there, .start⟩
  | @next events mid last move more goes made ih =>
    have silent : ∀ ending, .ended c ending ∉ more := fun ending member =>
      inside ending (List.mem_append_right _ member)
    have goesOn : ∀ {phase next r}, CallerTurn mid c phase next r more → next ≠ none := by
      rintro phase next r turn rfl
      obtain ⟨ending, member⟩ := (ended_caller turn).mpr ⟨rfl, rfl⟩
      exact silent ending member
    have own : ∀ {next r}, mid.call? c = some call.phase →
        CallerTurn mid c call.phase next r more → last = r.goOn c next →
          ∃ phase, last.call? c = some phase ∧ phase.isAccepted = true := by
      rintro next r here turn rfl
      rcases first_turn needs turn with ⟨later, rfl, accepted⟩ | ⟨_, gone, _⟩
      · exact ⟨later, by rw [call?_caller here turn, if_pos rfl], accepted⟩
      · exact absurd gone (goesOn turn)
    rcases ih fun ending member => inside ending (List.mem_append_left _ member) with
      ⟨here, without⟩ | ⟨phase, here, accepted⟩
    · by_cases mine : move.caller? = some c
      · obtain ⟨next, r, turn, same⟩ := own_move needs here mine made
        exact .inr (own here turn same)
      · rcases call?_turn (turn_of_step? made) here with ⟨next, r, turn, same⟩ | same | woken
        · exact .inr (own here turn same)
        · exact .inl ⟨same, without.next (step?_endCall here awake mine made)⟩
        · exact .inl ⟨calm ▸ woken, without.next (step?_endCall here awake mine made)⟩
    · refine .inr ?_
      rcases call?_turn (turn_of_step? made) here with ⟨next, r, turn, rfl⟩ | same | woken
      · cases next with
        | none => exact absurd rfl (goesOn turn)
        | some later =>
          exact ⟨later, by rw [call?_caller here turn, if_pos rfl],
            (accepted_turn accepted turn).1 later rfl⟩
      · exact ⟨phase, same, accepted⟩
      · exact ⟨_, woken, by cases phase <;> exact accepted⟩

theorem endCall_of_called (turn : p.Turn [.called c call] q) (other : call ≠ .drop) :
    q.endCall c = p := by
  obtain ⟨_, ⟨_, free, rfl⟩ | ⟨drop, _⟩⟩ := called_cases turn
  · have kept : p.calls.filter (·.1 ≠ c) = p.calls := by
      refine List.filter_eq_self.mpr fun entry member => decide_eq_true fun same => ?_
      exact not_mem_of_call?_none free (List.mem_map.mpr ⟨entry, member, same⟩)
    simp only [endCall, List.filter_append, kept]
    simp
  · exact absurd drop other

theorem Run.refused {size : PoolSize} {before during after : List (Event κ)} {abort : Abort}
    (run : Run (.new size) events p) (needs : call.needsOpen = true)
    (past : Ended events before c call (.aborted abort) during after) :
    Run (.new size) (before ++ during ++ after) p ∧
      ∃ request stage, abort = .wrongStage request stage ∧ stage.isClosed = true := by
  obtain ⟨start, next, last, q, through, first, rest, later, passage, rfl, rfl⟩ :=
    run.passage_of_ended past
  obtain ⟨phase, r, there, turn, rfl⟩ := passage.ends
  have inside := fun ending member => past.inside ending (List.mem_append_left _ member)
  have other : call ≠ .drop := fun drop => by rw [drop] at needs; cases needs
  have heard : .ended c (.aborted abort) ∈ first ++ .ended c (.aborted abort) :: rest :=
    List.mem_append_right _ List.mem_cons_self
  rcases passage.goes.without needs (call?_of_called passage.called) inside with
    ⟨here, without⟩ | ⟨phase, here, accepted⟩
  · cases there.symm.trans here
    rcases first_turn needs turn with ⟨later, impossible, _⟩ | ⟨shut, _, rfl, request, known⟩
    · cases impossible
    · obtain ⟨rfl, rfl, rfl⟩ : first = [] ∧ abort = .wrongStage request r.lifecycle ∧
          rest = [] := by
        cases first with
        | nil => cases known; exact ⟨rfl, rfl, rfl⟩
        | cons event first => simp at known
      have built : r.lifecycle ≠ .uninitialized := passage.goes.begun_after fun early =>
        begun_of_called passage.called (uninitialized_of_turn passage.called early).1
      rw [endCall_of_called passage.called other] at without
      rw [List.append_nil, List.nil_append]
      exact ⟨(passage.begins.trans without).trans passage.later, request, r.lifecycle, rfl,
        Lifecycle.isClosed_of_refusal built shut⟩
  · cases there.symm.trans here
    exact absurd heard ((accepted_turn accepted turn).2 abort)

theorem step?_of_closing (there : p.call? c = some (.closing .close)) :
    ∃ q, p.step? (.caller c none) = some (q, if p.lifecycle.acceptsJobs then [.closed c]
      else [.ended c (.aborted (.wrongStage .endTransaction p.lifecycle))]) := by
  obtain ⟨workers, pos⟩ := Nat.exists_eq_add_one.mpr p.size.workers_pos
  simp only [step?, callerStep?, there, Option.isSome_none, Bool.false_eq_true, if_false,
    closeTransaction, terminations_eq]
  split
  · rw [pos]
    exact ⟨_, rfl⟩
  · exact ⟨_, rfl⟩

/-- What is known of the stages of a pool, and of the calls that were refused because of them. -/
structure OneWay (size : PoolSize) (events : List (Event κ)) (p : Pool κ) : Prop where
  /-- Whatever a pool that was built does next, its stage stays or goes one step forward. -/
  forward : p.lifecycle ≠ .uninitialized → ∀ move q more, p.step? move = some (q, more) →
    q.lifecycle = p.lifecycle ∨ p.lifecycle.Advance q.lifecycle
  /-- A pool that is torn down stays so. -/
  final : p.lifecycle = .tornDown → ∀ more q, Run p more q → q.lifecycle = .tornDown
  /-- The transaction is closed once, when the stage says so. -/
  closings : events.countP Event.isClosed = if p.lifecycle.isClosed then 1 else 0
  /-- Of the calls that were to end it one did so and returned, the others were refused. -/
  decided : ∀ before c ending during after,
    Ended events before c .endTransaction ending during after →
      events.countP Event.isClosed = 1 ∧ Decided before c during ending
  /-- None of them has to wait for it. -/
  attempt : ∀ c, p.call? c = some (.closing .close) → ∃ q,
    p.step? (.caller c none) = some (q, if p.lifecycle.acceptsJobs then [.closed c]
      else [.ended c (.aborted (.wrongStage .endTransaction p.lifecycle))])
  sole : ∀ before c during after first d middle last,
    Returned events before c .endTransaction during after →
      Returned events first d .endTransaction middle last → first = before
  /-- Without a call that was refused, the other threads take the pool to the same state, and the
  same is heard of them. -/
  refused : ∀ before c call abort during after, call.needsOpen = true →
    Ended events before c call (.aborted abort) during after →
      Run (.new size) (before ++ during ++ after) p ∧
        ∃ request stage, abort = .wrongStage request stage ∧ stage.isClosed = true

theorem Run.oneWay {size : PoolSize} (run : Run (.new size) events p) : OneWay size events p where
  forward built _ _ _ made := run.sound.advance built (turn_of_step? made)
  final down _ _ later := later.down_after run.sound down
  closings := by
    rw [run.closings_eq]
    cases p.lifecycle.isClosed <;> rfl
  decided _ _ _ _ _ past := run.decided past
  attempt _ there := step?_of_closing there
  sole _ _ _ _ _ _ _ _ returned other := run.sole_closer returned other
  refused _ _ _ _ _ _ needs past := run.refused needs past

/-- Two calls that are to end the transaction, and a submission that comes too late. -/
def raced : List (Move Nat) :=
  [.start 0 (.ok ()), .caller 0 none, .begin 0 .endTransaction, .begin 1 .endTransaction,
    .begin 2 (.submit (.transform "in" "dir" "")), .caller 1 none, .caller 0 none, .caller 2 none,
    .caller 1 none, .caller 1 none]

/-- What is heard while the caller that comes second waits to be refused. -/
def heardMeantime : List (Event Nat) :=
  [.called 1 .endTransaction, .called 2 (.submit (.transform "in" "dir" "")), .closed 1]

theorem oneWay_of_raced : ∃ (change : Change Nat) (before after : List (Event Nat)),
    (Pool.new single).follow raced = some change ∧
      Ended change.2 before 0 .endTransaction
        (.aborted (.wrongStage .endTransaction .transactionClosed)) heardMeantime after ∧
      OneWay single change.2 change.1 := by
  have played : ((Pool.new single).follow raced).any (fun change =>
      decide (change.2 = change.2.take 3 ++ .called 0 .endTransaction :: (heardMeantime ++
        .ended 0 (.aborted (.wrongStage .endTransaction .transactionClosed)) ::
          change.2.drop 8))) = true := by
    decide
  obtain ⟨change, follows, split⟩ := (Option.any_eq_true _ _).mp played
  exact ⟨change, _, _, follows, ⟨of_decide_eq_true split, by simp [heardMeantime]⟩,
    (Run.of_follow .start follows).oneWay⟩

end Pool

end Spool
