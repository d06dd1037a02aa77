import Spool.Proofs.Pool.Barrier
import Spool.Proofs.Pool.Errands

/-!
The stage of a pool only goes forward. The transaction is closed once, by whoever finds it open;
every other call that is to end it is refused.
-/

namespace Spool

variable {κ : Type}

namespace Lifecycle

/-- The steps from one stage of a pool that was built to the next. -/
inductive Advance : Lifecycle → Lifecycle → Prop
  | opened : Advance .initialized .transactionOpen
  | closedUnused : Advance .initialized .transactionClosed
  | closed : Advance .transactionOpen .transactionClosed
  | tornDown : Advance .transactionClosed .tornDown

def isClosed : Lifecycle → Bool
  | .transactionClosed | .tornDown => true
  | .uninitialized | .initialized | .transactionOpen => false

theorem isClosed_of_refusal {stage : Lifecycle} (built : stage ≠ .uninitialized)
    (shut : stage.acceptsJobs = false) : stage.isClosed = true := by
  cases stage with
  | uninitialized => exact absurd rfl built
  | initialized | transactionOpen => cases shut
  | transactionClosed | tornDown => rfl

theorem isClosed_of_accepts {stage : Lifecycle} (accepts : stage.acceptsJobs = true) :
    stage.isClosed = false := by
  cases stage <;> first | rfl | cases accepts

end Lifecycle

def Event.isClosed : Event κ → Bool
  | .closed _ => true
  | _ => false

namespace Pool

variable {p q : Pool κ} {events more : List (Event κ)} {c : Nat}

section Stages

theorem Sound.isClosed_of_tearing (sound : Sound events p) {w : Nat} {ticket : Ticket}
    (there : p.phase? w = some (.tearing ticket)) : p.lifecycle.isClosed = true := by
  have running := running_of_tearing sound.staged sound.proper sound.balanced there
  obtain ⟨worker, found, same⟩ := worker?_of_phase? there
  have stop : ticket.job.isTermination = true := by
    have fits := sound.proper.workers w worker found
    rwa [same] at fits
  have ending := sound.balanced.isEnding there stop
  simp only [isEnding, Bool.and_eq_true, Bool.not_eq_true'] at ending
  exact Lifecycle.isClosed_of_refusal running.stage ending.1

theorem Sound.advance (sound : Sound events p) (built : p.lifecycle ≠ .uninitialized)
    (turn : p.Turn more q) :
    q.lifecycle = p.lifecycle ∨ p.lifecycle.Advance q.lifecycle := by
  cases turn with
  | called | dropped | dozed => exact .inl rfl
  | @caller c _ _ _ _ there made =>
    rw [goOn_lifecycle]
    cases made with
    | built => cases ((sound.staged.running built).calls c _ there).1
    | opened accepts =>
      cases stage : p.lifecycle with
      | initialized => exact .inr .opened
      | transactionOpen => exact .inl rfl
      | uninitialized | transactionClosed | tornDown => rw [stage] at accepts; cases accepts
    | closed accepts =>
      cases stage : p.lifecycle with
      | initialized => exact .inr .closedUnused
      | transactionOpen => exact .inr .closed
      | uninitialized | transactionClosed | tornDown => rw [stage] at accepts; cases accepts
    | _ => exact .inl rfl
  | @worker w worker _ _ _ there made =>
    rw [setWorker_lifecycle]
    have known := phase?_of_worker? there
    generalize worker.phase = phase at made known
    cases made with
    | tore =>
      have closed := sound.isClosed_of_tearing known
      cases stage : p.lifecycle with
      | transactionClosed => exact .inr .tornDown
      | tornDown => exact .inl rfl
      | uninitialized | initialized | transactionOpen => rw [stage] at closed; cases closed
    | _ => exact .inl rfl

theorem Run.down_after {before : List (Event κ)} (sound : Sound before p)
    (down : p.lifecycle = .tornDown) (run : Run p events q) : q.lifecycle = .tornDown := by
  induction run with
  | start => exact down
  | next goes made ih =>
    have built := goes.begun_after (by rw [down]; exact fun impossible => by cases impossible)
    rcases (goes.sound_after sound).advance built (turn_of_step? made) with same | advance
    · exact same.trans ih
    · rw [ih] at advance
      cases advance

theorem countP_heard (goal : Goal) (left : Nat) :
    (goal.heard (κ := κ) c left).countP Event.isClosed = 0 := by
  rcases heard_cases (κ := κ) goal c left with same | same <;> rw [same] <;> rfl

theorem closings_turn (sound : Sound events p) (turn : p.Turn more q) :
    more.countP Event.isClosed + p.lifecycle.isClosed.toNat = q.lifecycle.isClosed.toNat := by
  cases turn with
  | called | dropped | dozed => exact Nat.zero_add _
  | @caller c phase _ _ _ there made =>
    rw [goOn_lifecycle]
    cases made with
    | built =>
      rw [(sound.staged.building there).stage]
      rfl
    | opened accepts =>
      rw [Lifecycle.isClosed_of_accepts accepts]
      rfl
    | closed accepts =>
      rw [Lifecycle.isClosed_of_accepts accepts, List.countP_cons_of_pos rfl, countP_heard]
      rfl
    | abandoned | put =>
      rw [List.countP_cons_of_neg (fun closed => by cases closed), countP_heard]
      exact Nat.zero_add _
    | _ => exact Nat.zero_add _
  | @worker w worker _ _ _ there made =>
    rw [setWorker_lifecycle]
    have known := phase?_of_worker? there
    generalize worker.phase = phase at made known
    cases made with
    | tore =>
      rw [sound.isClosed_of_tearing known]
      rfl
    | _ => exact Nat.zero_add _

theorem Run.closings_eq {size : PoolSize} (run : Run (.new size) events p) :
    events.countP Event.isClosed = p.lifecycle.isClosed.toNat := by
  refine run.induct_sound (motive := fun events p =>
    events.countP Event.isClosed = p.lifecycle.isClosed.toNat) rfl ?_
  intro events p q more sound before turn
  rw [List.countP_append, before, Nat.add_comm]
  exact closings_turn sound turn

end Stages

section Inside

theorem called_cases {call : Call κ} (turn : p.Turn [.called c call] q) :
    p.dropped = false ∧
      (call ≠ .drop ∧ p.call? c = none ∧ q = { p with calls := p.calls ++ [(c, call.phase)] } ∨
        call = .drop ∧ p.calls = [] ∧
          q = { p with calls := [(c, .closing .drop)], dropped := true }) := by
  generalize heard : [Event.called c call] = more at turn
  cases turn with
  | called _ kept free other =>
    cases heard
    exact ⟨kept, .inl ⟨other, free, rfl⟩⟩
  | dropped _ kept empty =>
    cases heard
    exact ⟨kept, .inr ⟨rfl, empty, rfl⟩⟩
  | caller _ made => cases made <;> cases heard
  | @worker _ worker _ _ _ _ made =>
    generalize worker.phase = phase at made
    cases made <;> cases heard
  | dozed => cases heard

theorem inside_turn {later : CallPhase κ} (turn : p.Turn more q) (there : q.call? c = some later) :
    (∃ call, more = [.called c call] ∧ later = call.phase) ∨
      ∃ phase, p.call? c = some phase ∧ later.errand = phase.errand ∧
        ∀ ending, .ended c ending ∉ more := by
  cases turn with
  | @called d call _ _ free =>
    rw [call?_called p _ free] at there
    split at there
    · next same =>
      cases there
      exact .inl ⟨call, by rw [same], rfl⟩
    · exact .inr ⟨later, there, rfl, by simp⟩
  | @dropped d =>
    cases List.mem_singleton.mp (mem_of_call? there)
    exact .inl ⟨.drop, rfl, rfl⟩
  | @caller d phase next r _ found made =>
    refine .inr ?_
    rw [call?_caller found made] at there
    split at there
    · next same =>
      subst same
      subst there
      refine ⟨phase, found, errand_caller made, fun ending member => ?_⟩
      cases ((ended_caller made).mp ⟨ending, member⟩).2
    · next other =>
      exact ⟨later, there, rfl, fun ending member =>
        other ((ended_caller made).mp ⟨ending, member⟩).1⟩
  | worker found made =>
    refine .inr ?_
    rcases call?_worker made c with same | woken
    · exact ⟨later, same ▸ there, rfl, not_ended_worker made c⟩
    · rw [woken] at there
      obtain ⟨old, known, rfl⟩ := Option.map_eq_some_iff.mp there
      exact ⟨old, known, errand_woken old, not_ended_worker made c⟩
  | dozed => exact .inr ⟨later, there, rfl, fun _ => List.not_mem_nil⟩

theorem Run.begun_inside {size : PoolSize} (run : Run (.new size) events p) {phase : CallPhase κ}
    (there : p.call? c = some phase) :
    phase.errand = .build ∨ ∃ before call during, events = before ++ .called c call :: during ∧
      call.errand = phase.errand ∧ ∀ ending, .ended c ending ∉ during := by
  revert c phase there
  refine run.induct_sound (motive := fun events p => ∀ {c : Nat} {phase : CallPhase κ},
    p.call? c = some phase → phase.errand = .build ∨ ∃ before call during,
      events = before ++ .called c call :: during ∧ call.errand = phase.errand ∧
        ∀ ending, .ended c ending ∉ during) ?_ ?_
  · intro c phase there
    cases List.mem_singleton.mp (mem_of_call? there)
    exact .inl rfl
  · intro events p q more _ before turn c later there
    rcases inside_turn turn there with ⟨call, rfl, rfl⟩ | ⟨phase, found, same, silent⟩
    · exact .inr ⟨events, call, [], rfl, call.errand_phase.symm, fun _ => List.not_mem_nil⟩
    · rw [same]
      rcases before found with build | ⟨first, call, during, rfl, errand, inside⟩
      · exact .inl build
      · refine .inr ⟨first, call, during ++ more, ?_, errand, fun ending member => ?_⟩
        · rw [List.append_assoc, List.cons_append]
        · exact (List.mem_append.mp member).elim (inside ending) (silent ending)

theorem Run.not_called_inside {size : PoolSize} {before during after : List (Event κ)}
    {call : Call κ} {ending : Ending} (run : Run (.new size) events p)
    (past : Ended events before c call ending during after) (other : Call κ) :
    .called c other ∉ during := by
  obtain ⟨start, next, last, q, through, first, rest, later, passage, rfl, _⟩ :=
    run.passage_of_ended past
  obtain ⟨phase, r, there, turn, _⟩ := passage.ends
  have silent : ∀ heard, .called c other ∈ heard → ∀ {s t : Pool κ} {phase},
      s.call? c = some phase → ¬ s.Turn heard t := by
    intro heard member s t phase inside turn
    obtain ⟨a, b, rfl⟩ := List.append_of_mem member
    obtain ⟨rfl, rfl⟩ := called_of_turn turn rfl
    rw [(frame_of_called turn).2.2.1] at inside
    cases inside
  intro member
  rcases List.mem_append.mp member with inside | ending
  · obtain ⟨_, _, kept⟩ := passage.goes.through (motive := fun events p phase =>
        p.call? c = some phase ∧ .called c other ∉ events)
      (sound_turn passage.begins.sound passage.called) (call?_of_called passage.called)
      ⟨call?_of_called passage.called, List.not_mem_nil⟩
      (fun _ kept turn there _ => ⟨there, fun member => (List.mem_append.mp member).elim kept.2
        fun new => silent _ new kept.1 turn⟩)
      (fun _ kept there turn => ⟨by rw [call?_caller there turn, if_pos rfl], fun member =>
        (List.mem_append.mp member).elim kept.2 fun new => silent _ new there (.caller there turn)⟩)
      (fun ending member => past.inside ending (List.mem_append_left _ member))
    exact kept.2 inside
  · exact silent _ (List.mem_append_left _ ending) there (.caller there turn)

theorem exists_first_end {ending : Ending} (member : .ended c ending ∈ events) :
    ∃ during other after, events = during ++ .ended c other :: after ∧
      ∀ ending, .ended c ending ∉ during := by
  induction events with
  | nil => cases member
  | cons event events ih =>
    by_cases here : ∃ other, event = .ended c other
    · obtain ⟨other, rfl⟩ := here
      exact ⟨[], other, events, rfl, fun _ => List.not_mem_nil⟩
    · rcases List.mem_cons.mp member with same | later
      · exact absurd ⟨ending, same.symm⟩ here
      · obtain ⟨during, other, after, rfl, inside⟩ := ih later
        refine ⟨event :: during, other, after, rfl, fun ending member => ?_⟩
        exact (List.mem_cons.mp member).elim (fun same => here ⟨ending, same.symm⟩) (inside ending)

theorem Run.ended_of_gone {size : PoolSize} {before rest : List (Event κ)} {call : Call κ}
    (run : Run (.new size) events p) (split : events = before ++ .called c call :: rest)
    (gone : p.call? c = none) :
    ∃ during ending after, rest = during ++ .ended c ending :: after ∧
      Ended events before c call ending during after := by
  by_cases finished : ∃ ending, .ended c ending ∈ rest
  · obtain ⟨_, member⟩ := finished
    obtain ⟨during, ending, after, rfl, inside⟩ := exists_first_end member
    exact ⟨during, ending, after, rfl, split, inside⟩
  · obtain ⟨mid, next, begins, turn, goes⟩ := run.split split
    obtain ⟨later, there, _⟩ := goes.through (motive := fun _ _ _ => True)
      (sound_turn begins.sound turn) (call?_of_called turn) trivial (fun _ _ _ _ _ => trivial)
      (fun _ _ _ _ => trivial) fun ending member => finished ⟨ending, member⟩
    rw [gone] at there
    cases there

end Inside

section Ending

theorem dropped_turn (turn : p.Turn more q) (dropped : p.dropped = true) : q.dropped = true := by
  cases turn with
  | called | dozed => exact dropped
  | dropped => rfl
  | caller _ made =>
    rw [goOn_dropped]
    cases made <;> exact dropped
  | @worker _ worker _ _ _ _ made =>
    rw [setWorker_dropped]
    generalize worker.phase = phase at made
    cases made <;> exact dropped

theorem Run.dropped_after (dropped : p.dropped = true) (run : Run p events q) :
    q.dropped = true := by
  induction run with
  | start => exact dropped
  | next _ made ih => exact dropped_turn (turn_of_step? made) ih

theorem closed_of_turn (turn : p.Turn more q) (closed : .closed c ∈ more) :
    ∃ goal left, p.call? c = some (.closing goal) ∧
      q.call? c = some (.counting .termination left goal) := by
  cases turn with
  | called | dropped => cases List.mem_singleton.mp closed
  | dozed => cases closed
  | @caller d phase next r _ there made =>
    have table := call?_caller there made
    cases made with
    | @closed goal =>
      rcases List.mem_cons.mp closed with same | heard
      · cases same
        obtain ⟨left, workers⟩ := Nat.exists_eq_add_one.mpr p.size.workers_pos
        refine ⟨goal, left, there, ?_⟩
        rw [table, if_pos rfl, workers]
        rfl
      · exact absurd heard (not_heard fun impossible => by cases impossible)
    | abandoned | put =>
      rcases List.mem_cons.mp closed with impossible | heard
      · cases impossible
      · exact absurd heard (not_heard fun impossible => by cases impossible)
    | _ => simp at closed
  | @worker _ worker _ _ _ _ made =>
    generalize worker.phase = phase at made
    cases made <;> simp at closed

/-- What the call that is to end the transaction has done in each of its phases. -/
inductive Closing (c : Nat) (events : List (Event κ)) : CallPhase κ → Prop
  | trying : .closed c ∉ events → Closing c events (.closing .close)
  | counting {job : Job} {left : Nat} : .closed c ∈ events →
      Closing c events (.counting job left .close)
  | putting {left : Nat} : .closed c ∈ events → Closing c events (.putting left .close)

theorem Closing.others {phase later : CallPhase κ} (closing : Closing c events phase)
    (turn : p.Turn more q) (there : q.call? c = some later)
    (same : later = phase ∨ later = CallPhase.woken phase) : Closing c (events ++ more) later := by
  cases closing with
  | trying none =>
    obtain rfl : later = .closing .close := same.elim id id
    refine .trying fun member => (List.mem_append.mp member).elim none fun new => ?_
    obtain ⟨_, _, _, gone⟩ := closed_of_turn turn new
    cases there.symm.trans gone
  | counting closed =>
    obtain rfl := same.elim id id
    exact .counting (List.mem_append_left _ closed)
  | putting closed =>
    obtain rfl := same.elim id id
    exact .putting (List.mem_append_left _ closed)

theorem Closing.own {phase later : CallPhase κ} (closing : Closing c events phase)
    (turn : CallerTurn p c phase (some later) q more) : Closing c (events ++ more) later := by
  generalize known : some later = next at turn
  cases closing with
  | trying =>
    cases turn with
    | closed =>
      obtain ⟨workers, pos⟩ := Nat.exists_eq_add_one.mpr p.size.workers_pos
      rw [pos] at known
      cases known
      exact .counting (List.mem_append_right _ List.mem_cons_self)
    | late => cases known
  | counting closed =>
    cases turn
    cases known
    exact .putting (List.mem_append_left _ closed)
  | @putting left closed =>
    cases turn
    cases left with
    | zero => cases known
    | succ left =>
      cases known
      exact .counting (List.mem_append_left _ closed)

theorem undropped_turn {phase : CallPhase κ} (turn : p.Turn more q)
    (there : p.call? c = some phase) (kept : p.dropped = false) : q.dropped = false := by
  cases turn with
  | called | dozed => exact kept
  | dropped _ _ empty =>
    have member := mem_of_call? there
    rw [empty] at member
    cases member
  | caller _ made =>
    rw [goOn_dropped]
    cases made <;> exact kept
  | @worker _ worker _ _ _ _ made =>
    rw [setWorker_dropped]
    generalize worker.phase = phase at made
    cases made <;> exact kept

theorem undropped_of_called {call : Call κ} (turn : p.Turn [.called c call] q)
    (other : call ≠ .drop) : q.dropped = false := by
  obtain ⟨kept, ⟨_, _, rfl⟩ | ⟨drop, _⟩⟩ := called_cases turn
  · exact kept
  · exact absurd drop other

theorem Run.undropped_inside {before : List (Event κ)} {phase : CallPhase κ}
    (sound : Sound before p) (there : p.call? c = some phase) (kept : p.dropped = false)
    (run : Run p events q) (inside : ∀ ending, .ended c ending ∉ events) : q.dropped = false := by
  obtain ⟨_, _, _, kept⟩ := run.through (motive := fun _ p phase =>
      p.call? c = some phase ∧ p.dropped = false) sound there ⟨there, kept⟩
    (fun _ both turn there _ => ⟨there, undropped_turn turn both.1 both.2⟩)
    (fun _ both there turn => ⟨by rw [call?_caller there turn, if_pos rfl],
      undropped_turn (.caller there turn) both.1 both.2⟩) inside
  exact kept

theorem Run.closing_cases {size : PoolSize} {before during after : List (Event κ)}
    {ending : Ending} (run : Run (.new size) events p)
    (past : Ended events before c .endTransaction ending during after) :
    ending = .returned ∧ .closed c ∈ during ∨
      ∃ last, Run (.new size) (before ++ .called c .endTransaction :: during) last ∧
        last.lifecycle.isClosed = true ∧ last.dropped = false ∧
        ending = .aborted (.wrongStage .endTransaction last.lifecycle) ∧ .closed c ∉ during := by
  obtain ⟨start, next, last, q, through, first, rest, later, passage, rfl, _⟩ :=
    run.passage_of_ended past
  obtain ⟨phase, r, there, turn, _⟩ := passage.ends
  have inside := fun ending member => past.inside ending (List.mem_append_left _ member)
  have sound := sound_turn passage.begins.sound passage.called
  have began := call?_of_called passage.called
  have undropped := passage.goes.undropped_inside sound began
    (undropped_of_called passage.called fun impossible => by cases impossible) inside
  obtain ⟨now, here, closing⟩ := passage.goes.through (motive := fun events _ => Closing c events)
    sound began (.trying List.not_mem_nil)
    (fun _ closing turn there same => closing.others turn there same)
    (fun _ closing _ turn => closing.own turn) inside
  rw [there] at here
  cases here
  have built : last.lifecycle ≠ .uninitialized := passage.goes.begun_after fun early =>
    begun_of_called passage.called (uninitialized_of_turn passage.called early).1
  -- of the phases that such a call goes through, two can be its last
  generalize gone : (none : Option (CallPhase κ)) = done at turn
  generalize known : first ++ .ended c ending :: rest = heard at turn
  cases closing with
  | trying none =>
    cases turn with
    | closed =>
      obtain ⟨workers, pos⟩ := Nat.exists_eq_add_one.mpr last.size.workers_pos
      rw [pos] at gone
      cases gone
    | late shut =>
      cases first with
      | nil =>
        cases known
        rw [List.append_nil]
        exact .inr ⟨last, passage.whole, Lifecycle.isClosed_of_refusal built shut, undropped, rfl,
          none⟩
      | cons event first => simp at known
  | counting => cases turn; cases gone
  | @putting left closed =>
    cases turn
    rw [heard_of_next_none gone.symm] at known
    have returned : .ended c ending ∈ [Event.appended c _, .ended (κ := κ) c .returned] :=
      known ▸ List.mem_append_right first List.mem_cons_self
    simp only [List.mem_cons, reduceCtorEq, List.not_mem_nil, or_false, false_or,
      Event.ended.injEq, true_and] at returned
    exact .inl ⟨returned, List.mem_append_left _ closed⟩

/-- The transaction of a pool that is not dropped was closed by a call that was to end it. -/
theorem Run.closer {size : PoolSize} (run : Run (.new size) events p)
    (closed : p.lifecycle.isClosed = true) (kept : p.dropped = false) :
    ∃ first d middle last,
      events = first ++ .called d .endTransaction :: (middle ++ .closed d :: last) ∧
        ∀ ending, .ended d ending ∉ middle := by
  have once := run.closings_eq
  rw [closed] at once
  obtain ⟨event, member, kind⟩ := List.countP_pos_iff.mp (Nat.lt_of_lt_of_eq Nat.one_pos once.symm)
  obtain ⟨d, rfl⟩ : ∃ d, event = .closed d := by
    cases event with
    | closed d => exact ⟨d, rfl⟩
    | _ => cases kind
  obtain ⟨before, after, split⟩ := List.append_of_mem member
  obtain ⟨earlier, mid, heard, rest, next, later, begins, turn, goes, rfl, _⟩ := run.cut split
  obtain ⟨goal, left, there, gone⟩ :=
    closed_of_turn turn (List.mem_append_right _ List.mem_cons_self)
  have sound := begins.sound
  have accepts := accepts_of_closed turn (List.mem_append_right _ List.mem_cons_self)
  have running := sound.staged.running fun early => by rw [early] at accepts; cases accepts
  -- dropping closes the transaction too, but for good
  have close : goal = .close := by
    have fits := sound.proper.calls d _ there
    cases goal with
    | close => rfl
    | submit => cases fits
    | abandon => cases (running.calls d _ there).2
    | drop =>
      have dropped := goes.dropped_after
        (dropped_turn turn (sound.exclusive.dropping d _ there rfl))
      rw [kept] at dropped
      cases dropped
  subst close
  rcases begins.begun_inside there with build | ⟨first, call, middle, rfl, errand, inside⟩
  · cases build
  · obtain rfl : call = .endTransaction := by
      cases call with
      | endTransaction => rfl
      | _ => cases errand
    refine ⟨first, d, middle ++ heard, after, by simp [split], fun ending member => ?_⟩
    rcases List.mem_append.mp member with old | new
    · exact inside ending old
    · rcases inside_turn turn gone with ⟨call, same, _⟩ | ⟨_, _, _, silent⟩
      · have impossible : Event.closed d ∈ [Event.called d call] :=
          same ▸ List.mem_append_right _ List.mem_cons_self
        cases List.mem_singleton.mp impossible
      · exact silent ending (List.mem_append_left _ new)

/-- How a call that was to end the transaction ended. -/
inductive Decided (before : List (Event κ)) (c : Nat) (during : List (Event κ)) : Ending → Prop
  /-- It closed the transaction itself. -/
  | closed : .closed c ∈ during → Decided before c during .returned
  /-- Another call like it had done so. -/
  | late {stage : Lifecycle} {first middle last : List (Event κ)} {d : Nat} :
      stage.isClosed = true → .closed c ∉ during →
      before ++ .called c .endTransaction :: during =
        first ++ .called d .endTransaction :: (middle ++ .closed d :: last) →
      (∀ ending, .ended d ending ∉ middle) →
      Decided before c during (.aborted (.wrongStage .endTransaction stage))

theorem Run.closings_le_one {size : PoolSize} (run : Run (.new size) events p) :
    events.countP Event.isClosed ≤ 1 := by
  rw [run.closings_eq]
  exact Bool.toNat_le _

theorem Run.decided {size : PoolSize} {before during after : List (Event κ)} {ending : Ending}
    (run : Run (.new size) events p)
    (past : Ended events before c .endTransaction ending during after) :
    events.countP Event.isClosed = 1 ∧ Decided before c during ending := by
  rcases run.closing_cases past with ⟨rfl, closed⟩ | ⟨last, reached, shut, kept, rfl, none⟩
  · refine ⟨Nat.le_antisymm run.closings_le_one (List.countP_pos_iff.mpr ⟨.closed c, ?_, rfl⟩),
      .closed closed⟩
    rw [past.split]
    exact List.mem_append_right _ (List.mem_cons_of_mem _ (List.mem_append_left _ closed))
  · obtain ⟨first, d, middle, rest, split, inside⟩ := reached.closer shut kept
    refine ⟨Nat.le_antisymm run.closings_le_one ?_, .late shut none split inside⟩
    have once := reached.closings_eq
    rw [shut, Bool.toNat_true] at once
    rw [past.split, ← List.cons_append, ← List.append_assoc, List.countP_append, once]
    exact Nat.le_add_right 1 _

theorem eq_of_last {α : Type} {a : α} {xs ys zs ws : List α}
    (same : xs ++ a :: ys = zs ++ a :: ws) (last : a ∉ ys) (other : a ∉ ws) : xs = zs := by
  rcases List.append_eq_append_iff.mp same with ⟨gap, rfl, tail⟩ | ⟨gap, rfl, tail⟩
  · cases gap with
    | nil => exact (List.append_nil xs).symm
    | cons b gap =>
      obtain ⟨rfl, rfl⟩ := List.cons.inj tail
      exact absurd (List.mem_append_right gap List.mem_cons_self) last
  · cases gap with
    | nil => exact List.append_nil zs
    | cons b gap =>
      obtain ⟨rfl, rfl⟩ := List.cons.inj tail
      exact absurd (List.mem_append_right gap List.mem_cons_self) other

/-- One call returns from ending the transaction, and no other. -/
theorem Run.sole_closer {size : PoolSize} {before during after first middle last : List (Event κ)}
    {d : Nat} (run : Run (.new size) events p)
    (returned : Returned events before c .endTransaction during after)
    (other : Returned events first d .endTransaction middle last) : first = before := by
  have closed : ∀ {before c during after}, Returned events before c .endTransaction during after →
      .closed c ∈ during := by
    intro before c during after returned
    rcases run.closing_cases returned.ended with ⟨_, closed⟩ | ⟨_, _, _, _, impossible, _⟩
    · exact closed
    · cases impossible
  obtain ⟨early, rest, rfl⟩ := List.append_of_mem (closed returned)
  obtain ⟨early', rest', rfl⟩ := List.append_of_mem (closed other)
  have split : events = (before ++ .called c .endTransaction :: early) ++
      .closed c :: (rest ++ .ended c .returned :: after) := by
    rw [returned.split]
    simp
  have split' : events = (first ++ .called d .endTransaction :: early') ++
      .closed d :: (rest' ++ .ended d .returned :: last) := by
    rw [other.split]
    simp
  -- each of them closed the transaction, and only one event did
  have once := run.closings_le_one
  rw [split, List.countP_append, List.countP_cons_of_pos rfl] at once
  have none : ∀ {xs : List (Event κ)}, xs.countP Event.isClosed = 0 → .closed d ∉ xs :=
    fun zero member => List.countP_eq_zero.mp zero _ member rfl
  obtain ⟨rfl, same⟩ : d = c ∧ first ++ .called d .endTransaction :: early' =
      before ++ .called c .endTransaction :: early := by
    rcases split_append (split.symm.trans split') with ⟨gap, same, _⟩ | ⟨gap, same, tail⟩
    · have member : .closed d ∈ before ++ .called c .endTransaction :: early :=
        same ▸ List.mem_append_right _ List.mem_cons_self
      exact absurd member (none (by omega))
    · cases gap with
      | nil =>
        have caller := (List.cons.inj tail).1
        cases caller
        exact ⟨rfl, same.trans (List.append_nil _)⟩
      | cons head gap =>
        have later : .closed d ∈ rest ++ .ended c .returned :: after :=
          (List.cons.inj tail).2 ▸ List.mem_append_right gap List.mem_cons_self
        exact absurd later (none (by omega))
  have inside := run.not_called_inside returned.ended .endTransaction
  have inside' := run.not_called_inside other.ended .endTransaction
  exact eq_of_last same (fun member => inside' (List.mem_append_left _ member))
    fun member => inside (List.mem_append_left _ member)

end Ending

section Submitting

theorem SubmissionsFirst.of_append (orderly : SubmissionsFirst (events ++ more)) :
    SubmissionsFirst events := by
  rintro before c call after rfl closes
  obtain ⟨nobody, none⟩ := orderly before c call (after ++ more) (by simp) closes
  exact ⟨nobody, fun d submission member => none d submission (List.mem_append_left _ member)⟩

theorem Run.submit_cases {size : PoolSize} {before during after : List (Event κ)}
    {submission : Submission} {ending : Ending} (run : Run (.new size) events p)
    (past : Ended events before c (.submit submission) ending during after) :
    ending = .returned ∨ ∃ last,
      Run (.new size) (before ++ .called c (.submit submission) :: during) last ∧
        last.isEnding = true ∧ last.call? c = some (.opening submission) := by
  obtain ⟨start, next, last, q, through, first, rest, later, passage, rfl, _⟩ :=
    run.passage_of_ended past
  obtain ⟨phase, r, there, turn, _⟩ := passage.ends
  have inside := fun ending member => past.inside ending (List.mem_append_left _ member)
  obtain ⟨now, here, submits⟩ := passage.goes.through
    (motive := fun events _ phase => Submits c submission events phase)
    (sound_turn passage.begins.sound passage.called) (call?_of_called passage.called) .opening
    (fun _ submits _ _ same => by
      rcases same with rfl | rfl
      · exact submits.append
      · exact submits.woken.append)
    (fun _ submits _ turn => submits.own turn) inside
  rw [there] at here
  cases here
  have built : last.lifecycle ≠ .uninitialized := passage.goes.begun_after fun early =>
    begun_of_called passage.called (uninitialized_of_turn passage.called early).1
  generalize gone : (none : Option (CallPhase κ)) = done at turn
  generalize known : first ++ .ended c ending :: rest = heard at turn
  cases submits with
  | opening =>
    cases turn with
    | opened => cases gone
    | refused shut =>
      cases first with
      | nil =>
        refine .inr ⟨last, by rw [List.append_nil]; exact passage.whole, ?_, there⟩
        have sound := passage.whole.sound
        rw [(sound.staged.running built).isEnding_eq sound.staged, shut]
        rfl
      | cons event first => simp at known
  | making => cases turn; cases gone
  | counting => cases turn; cases gone
  | putting =>
    cases turn
    have returned : .ended c ending ∈ [Event.appended c _, .ended (κ := κ) c .returned] :=
      known ▸ List.mem_append_right first List.mem_cons_self
    simp only [List.mem_cons, reduceCtorEq, List.not_mem_nil, or_false, false_or,
      Event.ended.injEq, true_and] at returned
    exact .inl returned

theorem Run.returned_of_orderly {size : PoolSize} {before during after : List (Event κ)}
    {submission : Submission} {ending : Ending} (run : Run (.new size) events p)
    (orderly : SubmissionsFirst events)
    (past : Ended events before c (.submit submission) ending during after) :
    Returned events before c (.submit submission) during after := by
  rcases run.submit_cases past with rfl | ⟨last, reached, ending, there⟩
  · exact ⟨past.split, past.inside⟩
  · have split := past.split
    rw [← List.cons_append, ← List.append_assoc] at split
    have sorted := reached.sorted_of_orderly (split ▸ orderly).of_append ending
    cases sorted.quiet c _ there

end Submitting

end Pool

end Spool
