import Spool.Proofs.Pool.Submissions

/-!
A call in a history. From its beginning to its end it goes through its own phases, however the other
threads interleave with it: a submission counts its job before it returns, and the call that ends
the transaction has put every termination into the queue.
-/

namespace Spool

variable {κ : Type}

/-- The event is the end of the caller's call. -/
def Event.ends (c : Nat) : Event κ → Bool
  | .ended d _ => d = c
  | _ => false

namespace Pool

variable {p q : Pool κ} {events more : List (Event κ)}

/-- A call that returned, with what was heard before it, during it and afterwards. -/
structure Returned (events before : List (Event κ)) (c : Nat) (call : Call κ)
    (during after : List (Event κ)) : Prop where
  split : events = before ++ .called c call :: (during ++ .ended c .returned :: after)
  inside : ∀ ending, .ended c ending ∉ during

instance [DecidableEq κ] {before during after : List (Event κ)} {c : Nat} {call : Call κ} :
    Decidable (Returned events before c call during after) :=
  decidable_of_iff (events = before ++ .called c call :: (during ++ .ended c .returned :: after) ∧
      during.any (Event.ends c) = false) <| by
    constructor
    · rintro ⟨split, none⟩
      refine ⟨split, fun ending member => ?_⟩
      exact List.any_eq_false.mp none _ member (decide_eq_true rfl)
    · rintro ⟨split, inside⟩
      refine ⟨split, List.any_eq_false.mpr fun event member ends => ?_⟩
      cases event with
      | ended d ending =>
        obtain rfl : d = c := of_decide_eq_true ends
        exact inside ending member
      | _ => cases ends

/-- A call that ended, in whatever way. -/
structure Ended (events before : List (Event κ)) (c : Nat) (call : Call κ) (ending : Ending)
    (during after : List (Event κ)) : Prop where
  split : events = before ++ .called c call :: (during ++ .ended c ending :: after)
  inside : ∀ other, .ended c other ∉ during

theorem Returned.ended {before during after : List (Event κ)} {c : Nat} {call : Call κ}
    (returned : Returned events before c call during after) :
    Ended events before c call .returned during after :=
  ⟨returned.split, returned.inside⟩

section Steps

theorem heard_of_next_none {goal : Goal} {c left : Nat} (none : goal.next (κ := κ) left = none) :
    goal.heard (κ := κ) c left = [.ended c .returned] := by
  cases left with
  | zero => cases goal <;> first | rfl | cases none
  | succ left => cases none

theorem heard_of_next_some {goal : Goal} {c left : Nat} {later : CallPhase κ}
    (some : goal.next left = some later) : goal.heard (κ := κ) c left = [] := by
  cases left with
  | zero => cases goal <;> first | rfl | cases some
  | succ left => rfl

theorem ended_caller {c d : Nat} {phase : CallPhase κ} {next : Option (CallPhase κ)}
    (turn : CallerTurn p c phase next q more) :
    (∃ ending, .ended d ending ∈ more) ↔ d = c ∧ next = none := by
  cases turn with
  | @abandoned _ error =>
    cases left : (Goal.abandon error).next (κ := κ) p.workers.length with
    | none => simp [heard_of_next_none left]
    | some => simp [heard_of_next_some left]
  | @put more goal =>
    cases left : goal.next (κ := κ) more with
    | none => simp [heard_of_next_none left]
    | some => simp [heard_of_next_some left]
  | @closed goal =>
    cases left : goal.next (κ := κ) p.size.workers with
    | none => simp [heard_of_next_none left]
    | some => simp [heard_of_next_some left]
  | _ => simp

theorem not_ended_worker {w : Nat} {worker new : Worker} {phase : WorkerPhase}
    (turn : WorkerTurn p w worker phase new q more) (c : Nat) (ending : Ending) :
    .ended c ending ∉ more := by
  cases turn <;> simp

theorem ended_of_turn {c : Nat} {ending : Ending} (turn : p.Turn more q)
    (member : .ended c ending ∈ more) :
    ∃ phase r, p.call? c = some phase ∧ CallerTurn p c phase none r more ∧ q = r.endCall c := by
  cases turn with
  | called | dropped => cases List.mem_singleton.mp member
  | dozed => cases member
  | @caller d phase next r _ there made =>
    obtain ⟨rfl, rfl⟩ := (ended_caller made).mp ⟨ending, member⟩
    exact ⟨phase, r, there, made, rfl⟩
  | worker _ made => exact absurd member (not_ended_worker made c ending)

theorem call?_turn {c : Nat} {phase : CallPhase κ} (turn : p.Turn more q)
    (there : p.call? c = some phase) :
    (∃ next r, CallerTurn p c phase next r more ∧ q = r.goOn c next) ∨
      q.call? c = some phase ∨ q.call? c = some (CallPhase.woken phase) := by
  cases turn with
  | called _ _ free =>
    refine .inr (.inl ?_)
    rw [call?_called p _ free]
    split
    · next same =>
      rw [same, free] at there
      cases there
    · exact there
  | dropped _ _ empty =>
    have member := mem_of_call? there
    rw [empty] at member
    cases member
  | @caller d other next r _ found made =>
    by_cases same : c = d
    · subst same
      rw [there] at found
      cases found
      exact .inl ⟨next, r, made, rfl⟩
    · refine .inr (.inl ?_)
      rw [call?_caller found made, if_neg same]
      exact there
  | worker _ made =>
    refine .inr ?_
    rcases call?_worker made c with same | woken
    · exact .inl (same.trans there)
    · exact .inr (by rw [woken, there]; rfl)
  | dozed => exact .inr (.inl there)

theorem call?_of_called {c : Nat} {call : Call κ} (turn : p.Turn [.called c call] q) :
    q.call? c = some call.phase := by
  generalize heard : [Event.called c call] = more at turn
  cases turn with
  | called _ _ free =>
    cases heard
    rw [call?_called p _ free, if_pos rfl]
  | dropped =>
    cases heard
    simp [call?, Call.phase]
  | caller _ made => cases made <;> cases heard
  | @worker _ worker _ _ _ _ made =>
    generalize worker.phase = phase at made
    cases made <;> cases heard
  | dozed => cases heard

end Steps

section Through

/-- What holds when a call begins, and is kept by its own turns and by those of others, holds as
long as the call has not ended. -/
theorem Run.through {before : List (Event κ)} {c : Nat} {phase : CallPhase κ}
    {motive : List (Event κ) → Pool κ → CallPhase κ → Prop} (sound : Sound before p)
    (there : p.call? c = some phase) (first : motive [] p phase)
    (others : ∀ {events more : List (Event κ)} {p q : Pool κ} {phase later : CallPhase κ},
      Sound (before ++ events) p → motive events p phase → p.Turn more q →
        q.call? c = some later → later = phase ∨ later = CallPhase.woken phase →
          motive (events ++ more) q later)
    (own : ∀ {events more : List (Event κ)} {p q : Pool κ} {phase later : CallPhase κ},
      Sound (before ++ events) p → motive events p phase → p.call? c = some phase →
        CallerTurn p c phase (some later) q more →
          motive (events ++ more) (q.goOn c (some later)) later)
    (run : Run p events q) (inside : ∀ ending, .ended c ending ∉ events) :
    ∃ later, q.call? c = some later ∧ motive events q later := by
  induction run with
  | start => exact ⟨phase, there, first⟩
  | @next events mid last move more goes made ih =>
    obtain ⟨now, here, kept⟩ := ih fun ending member =>
      inside ending (List.mem_append_left _ member)
    have turn := turn_of_step? made
    have sound := goes.sound_after sound
    rcases call?_turn turn here with ⟨next, r, step, rfl⟩ | same | woken
    · cases next with
      | none =>
        obtain ⟨ending, member⟩ := (ended_caller step).mpr ⟨rfl, rfl⟩
        exact absurd (List.mem_append_right _ member) (inside ending)
      | some later =>
        refine ⟨later, ?_, own sound kept here step⟩
        rw [call?_caller here step, if_pos rfl]
    · exact ⟨now, same, others sound kept turn same (.inl rfl)⟩
    · exact ⟨_, woken, others sound kept turn woken (.inr rfl)⟩

/-- A call that ended, cut out of a run to `p`: it began in `start`, and ended when `last` became
`q`. -/
structure Passage (size : PoolSize) (before : List (Event κ)) (c : Nat) (call : Call κ)
    (start next last q p : Pool κ) (through heard later : List (Event κ)) : Prop where
  begins : Run (.new size) before start
  called : start.Turn [.called c call] next
  goes : Run next through last
  whole : Run (.new size) (before ++ .called c call :: through) last
  made : ∃ move, last.step? move = some (q, heard)
  ends : ∃ phase r, last.call? c = some phase ∧ CallerTurn last c phase none r heard ∧
    q = r.endCall c
  later : Run q later p

theorem Run.passage_of_ended {size : PoolSize} {before during after : List (Event κ)} {c : Nat}
    {call : Call κ} {ending : Ending} (run : Run (.new size) events p)
    (past : Ended events before c call ending during after) :
    ∃ start next last q through first rest later,
      Passage size before c call start next last q p through
        (first ++ .ended c ending :: rest) later ∧
      during = through ++ first ∧ after = rest ++ later := by
  have cut : events = (before ++ .called c call :: during) ++ .ended c ending :: after := by
    rw [past.split, List.append_assoc, List.cons_append]
  obtain ⟨head, last, first, rest, move, q, later, begins, made, goes, same, tail⟩ :=
    run.cut_step cut
  have turn := turn_of_step? made
  have ended : .ended c ending ∈ first ++ .ended c ending :: rest :=
    List.mem_append_right _ List.mem_cons_self
  -- the call began in an earlier turn
  have other : .called c call ∉ first := by
    intro member
    obtain ⟨a, b, split⟩ := List.append_of_mem member
    rw [split, List.append_assoc, List.cons_append] at turn
    obtain ⟨_, none⟩ := called_of_turn turn rfl
    simp at none
  rcases List.append_eq_append_iff.mp same with ⟨through, rfl, split⟩ | ⟨rest, _, split⟩
  · cases through with
    | nil =>
      rw [List.nil_append] at split
      exact absurd (split ▸ List.mem_cons_self) other
    | cons event through =>
      rw [List.cons_append] at split
      cases split
      obtain ⟨start, next, starts, called, goes'⟩ := begins.split rfl
      exact ⟨start, next, last, q, through, first, rest, later,
        ⟨starts, called, goes', begins, ⟨move, made⟩, ended_of_turn turn ended, goes⟩, rfl, tail⟩
  · exact absurd (split ▸ List.mem_append_right _ List.mem_cons_self) other

theorem Run.passage {size : PoolSize} {before during after : List (Event κ)} {c : Nat}
    {call : Call κ} (run : Run (.new size) events p)
    (returned : Returned events before c call during after) :
    ∃ start next last q through first rest later,
      Passage size before c call start next last q p through
        (first ++ .ended c .returned :: rest) later ∧
      during = through ++ first ∧ after = rest ++ later :=
  run.passage_of_ended returned.ended

end Through

section Submitting

/-- What a submission has done in each of its phases. -/
inductive Submits (c : Nat) (submission : Submission) (events : List (Event κ)) :
    CallPhase κ → Prop
  | opening : Submits c submission events (.opening submission)
  | making : Submits c submission events (.making submission)
  | counting {move : Bool} : Submits c submission events (.counting (submission.job move) 0 .submit)
  | putting {move : Bool} {ticket : Ticket} : ticket.job = submission.job move →
      .counted c ticket ∈ events → Submits c submission events (.putting 0 .submit)

theorem Submits.append {c : Nat} {submission : Submission} {phase : CallPhase κ}
    (submits : Submits c submission events phase) : Submits c submission (events ++ more) phase := by
  cases submits with
  | opening => exact .opening
  | making => exact .making
  | counting => exact .counting
  | putting job counted => exact .putting job (List.mem_append_left _ counted)

theorem Submits.woken {c : Nat} {submission : Submission} {phase : CallPhase κ}
    (submits : Submits c submission events phase) :
    Submits c submission events (CallPhase.woken phase) := by
  cases submits with
  | opening => exact .opening
  | making => exact .making
  | counting => exact .counting
  | putting job counted => exact .putting job counted

theorem Submits.own {c : Nat} {submission : Submission} {phase later : CallPhase κ}
    (submits : Submits c submission events phase)
    (turn : CallerTurn p c phase (some later) q more) :
    Submits c submission (events ++ more) later := by
  cases submits with
  | opening => cases turn; exact .making
  | making => cases turn; exact .counting
  | counting =>
    cases turn
    exact .putting rfl (List.mem_append_right _ List.mem_cons_self)
  | putting =>
    generalize known : some later = next at turn
    cases turn
    cases known

theorem Run.counted_of_returned {size : PoolSize} {before during after : List (Event κ)} {c : Nat}
    {submission : Submission} (run : Run (.new size) events p)
    (returned : Returned events before c (.submit submission) during after) :
    ∃ move ticket, ticket.job = submission.job move ∧ .counted c ticket ∈ during := by
  obtain ⟨start, next, last, q, through, first, rest, later, passage, rfl, _⟩ := run.passage returned
  obtain ⟨phase, r, there, turn, _⟩ := passage.ends
  obtain ⟨now, here, submits⟩ := passage.goes.through (motive := fun events _ phase =>
      Submits c submission events phase) (sound_turn passage.begins.sound passage.called)
    (call?_of_called passage.called) .opening
    (fun _ submits _ _ same => by
      rcases same with rfl | rfl
      · exact submits.append
      · exact submits.woken.append)
    (fun _ submits _ turn => submits.own turn)
    fun ending member => returned.inside ending (List.mem_append_left _ member)
  rw [there] at here
  cases here
  generalize last : first ++ .ended c .returned :: rest = heard at turn
  cases submits with
  | opening =>
    cases turn
    have member := last ▸ List.mem_append_right first List.mem_cons_self
    cases List.mem_singleton.mp member
  | making | counting => cases turn
  | @putting move ticket job counted =>
    exact ⟨move, ticket, job, List.mem_append_left _ counted⟩

end Submitting

section Closing

theorem toCome_turn {before : List (Event κ)} (sound : Sound before p) (ending : p.isEnding = true)
    (turn : p.Turn more q) : q.callSum CallPhase.toCome ≤ p.callSum CallPhase.toCome := by
  cases turn with
  | @called c call =>
    simp only [callSum, tally_append, tally_cons, tally_nil, toCome_phase, Nat.add_zero]
    exact Nat.le_refl _
  | dropped => exact Nat.zero_le _
  | @caller c phase next r _ there made =>
    have change := callSum_caller CallPhase.toCome sound.staged.callers there made
    simp only [isEnding, Bool.and_eq_true, Bool.not_eq_true', List.all_eq_true] at ending
    have less : (next.map CallPhase.toCome).getD 0 ≤ phase.toCome := by
      have fits := sound.proper.calls c phase there
      cases made with
      | abandoned => cases ending.2 _ (mem_of_call? there)
      | closed accepts =>
        rw [ending.1] at accepts
        cases accepts
      | @put left goal =>
        cases submits : goal.isSubmit with
        | true =>
          have last : left = 0 := fits submits
          subst last
          cases goal <;> exact Nat.zero_le _
        | false =>
          rw [Goal.toCome_next submits]
          simp [CallPhase.toCome, submits]
      | _ => simp [CallPhase.toCome, Goal.isSubmit]
    omega
  | worker _ made => exact Nat.le_of_eq (callSum_worker rfl made)
  | dozed => exact Nat.le_refl _

/-- What the call that ends the transaction has done in each of its phases: once it has closed the
transaction, it is the only one that has terminations to schedule. -/
def Closes (p : Pool κ) (phase : CallPhase κ) : Prop :=
  phase = .closing .close ∨
    p.isEnding = true ∧ p.callSum CallPhase.toCome = phase.toCome ∧ phase.goal? = some .close

theorem closes_others {before : List (Event κ)} {c : Nat} {phase later : CallPhase κ}
    (sound : Sound before p) (closes : Closes p phase) (turn : p.Turn more q)
    (there : q.call? c = some later) (same : later = phase ∨ later = CallPhase.woken phase) :
    Closes q later := by
  rcases closes with rfl | ⟨ending, sum, goal⟩
  · exact .inl (same.elim id id)
  · have alike : later.toCome = phase.toCome ∧ later.goal? = phase.goal? := by
      rcases same with rfl | rfl
      · exact ⟨rfl, rfl⟩
      · cases phase <;> exact ⟨rfl, rfl⟩
    have least := le_callSum CallPhase.toCome there
    have most := toCome_turn sound ending turn
    exact .inr ⟨ending_turn sound.proper sound.balanced turn (sound_turn sound turn).staged ending,
      by omega, alike.2.trans goal⟩

theorem goal?_next {c : Nat} {phase later : CallPhase κ} {goal : Goal}
    (turn : CallerTurn p c phase (some later) q more) (known : phase.goal? = some goal) :
    later.goal? = some goal := by
  generalize next : some later = other at turn
  cases turn with
  | put | closed => exact (Goal.goal?_of_next next.symm).1.trans known
  | counted | joined | dropping =>
    cases next
    exact known
  | late | allJoined => cases next
  | _ => cases known

theorem isEnding_closed {before : List (Event κ)} (sound : Sound before p)
    (closed : p.lifecycle = .transactionClosed) : p.isEnding = true := by
  have running := sound.staged.running fun early => by rw [early] at closed; cases closed
  rw [running.isEnding_eq sound.staged, closed]
  rfl

theorem closes_own {before : List (Event κ)} {c : Nat} {phase later : CallPhase κ}
    (sound : Sound before p) (closes : Closes p phase) (there : p.call? c = some phase)
    (turn : CallerTurn p c phase (some later) q more) :
    Closes (q.goOn c (some later)) later := by
  have change := callSum_caller CallPhase.toCome sound.staged.callers there turn
  have step : p.Turn more (q.goOn c (some later)) := .caller there turn
  have after := sound_turn sound step
  have now : ((some later).map CallPhase.toCome).getD 0 = later.toCome := rfl
  rcases closes with rfl | ⟨ending, sum, goal⟩
  · have goal := goal?_next turn rfl
    have none : (CallPhase.closing (κ := κ) .close).toCome = 0 := rfl
    generalize known : some later = next at turn after change now
    cases turn with
    | closed accepts =>
      have load := sound.balanced.load
      have ongoing : p.isEnding = false := by
        simp only [isEnding, accepts, Bool.not_true, Bool.false_and]
      rw [ongoing] at load
      simp only [terminationLoad, Bool.false_eq_true, if_false] at load
      exact .inr ⟨isEnding_closed after (goOn_lifecycle ..), by omega, goal⟩
    | late => cases known
  · exact .inr ⟨ending_turn sound.proper sound.balanced step after.staged ending, by omega,
      goal?_next turn goal⟩

theorem Run.none_toCome_after {before : List (Event κ)} (sound : Sound before p)
    (ending : p.isEnding = true) (none : p.callSum CallPhase.toCome = 0) (run : Run p events q) :
    q.callSum CallPhase.toCome = 0 := by
  induction run with
  | start => exact none
  | next goes made ih =>
    have less := toCome_turn (goes.sound_after sound) (goes.ending_after sound ending).1
      (turn_of_step? made)
    omega

theorem Run.none_toCome {size : PoolSize} {before during after : List (Event κ)} {c : Nat}
    (run : Run (.new size) events p)
    (returned : Returned events before c .endTransaction during after) :
    p.isEnding = true ∧ p.callSum CallPhase.toCome = 0 := by
  obtain ⟨start, next, last, q, through, first, rest, later, passage, rfl, _⟩ := run.passage returned
  obtain ⟨phase, r, there, turn, rfl⟩ := passage.ends
  obtain ⟨now, here, closes⟩ := passage.goes.through (motive := fun _ => Closes)
    (sound_turn passage.begins.sound passage.called) (call?_of_called passage.called) (.inl rfl)
    (fun sound closes turn there same => closes_others sound closes turn there same)
    (fun sound closes there turn => closes_own sound closes there turn)
    fun ending member => returned.inside ending (List.mem_append_left _ member)
  rw [there] at here
  cases here
  have sound := passage.whole.sound
  have step : last.Turn _ (r.endCall c) := .caller there turn
  have after := sound_turn sound step
  rcases closes with rfl | ⟨ending, sum, goal⟩
  · generalize left : (none : Option (CallPhase κ)) = next at turn
    generalize known : first ++ .ended c .returned :: rest = heard at turn
    cases turn with
    | closed =>
      obtain ⟨workers, pos⟩ := Nat.exists_eq_add_one.mpr last.size.workers_pos
      rw [pos] at left
      cases left
    | late =>
      have member := known ▸ List.mem_append_right first List.mem_cons_self
      cases List.mem_singleton.mp member
  · have change := callSum_caller CallPhase.toCome sound.staged.callers there turn
    have none : (r.endCall c).callSum CallPhase.toCome = 0 := by
      have same : (r.goOn c none).callSum CallPhase.toCome + phase.toCome =
        last.callSum CallPhase.toCome := change
      simp only [goOn] at same
      omega
    have still := ending_turn sound.proper sound.balanced step after.staged ending
    exact ⟨(passage.later.ending_after after still).1,
      passage.later.none_toCome_after after still none⟩

end Closing

end Pool

end Spool
