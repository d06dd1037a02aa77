import Spool.Proofs.Pool.Drain
import Spool.Proofs.Pool.Records
import Spool.Proofs.Pool.Terminations

/-!
Everything that holds in every state of a pool, and that it does: it holds of a new pool, and every
turn keeps it.
-/

namespace Spool

variable {κ : Type}

namespace Pool

variable {p q : Pool κ} {events : List (Event κ)}

/-- Workers are joined when the pool ends, by the only call there is. -/
structure Exclusive (p : Pool κ) : Prop where
  lone : p.lifecycle = .uninitialized ∨ p.dropped = true → p.calls.length ≤ 1
  dropping : ∀ c phase, p.call? c = some phase → phase.goal? = some .drop → p.dropped = true
  joining : ∀ c next goal, p.call? c = some (.joining next goal) →
    p.isEnding = true ∧ (goal = .drop ∨ goal.isAbandon = true)

theorem length_goOn_le (c : Nat) (next : Option (CallPhase κ)) :
    (p.goOn c next).calls.length ≤ p.calls.length := by
  have keys := (keys_goOn_sublist p c next).length_le
  rwa [List.length_map, List.length_map] at keys

theorem length_wakeWaiters : p.wakeWaiters.calls.length = p.calls.length := by
  rw [wakeWaiters_calls, List.length_map]

theorem lone_turn (exclusive : p.Exclusive) (turn : p.Turn events q) :
    q.lifecycle = .uninitialized ∨ q.dropped = true → q.calls.length ≤ 1 := by
  intro apart
  cases turn with
  | called begun kept =>
    rcases apart with unready | dropped
    · exact absurd unready begun
    · rw [kept] at dropped
      cases dropped
  | dropped => exact Nat.le_refl 1
  | @caller c _ next r _ _ made =>
    refine Nat.le_trans (length_goOn_le c next) ?_
    rw [calls_of_callerTurn made]
    refine exclusive.lone ?_
    rw [goOn_lifecycle, goOn_dropped] at apart
    cases made with
    | built | opened | closed => exact .inr (apart.resolve_left fun impossible => by cases impossible)
    | _ => exact apart
  | @worker w worker new r _ _ made =>
    have length : r.calls.length = p.calls.length := by
      rcases calls_of_workerTurn made with same | ⟨woken, _⟩
      · rw [same]
      · rw [woken, length_wakeWaiters]
    rw [setWorker_calls, length]
    refine exclusive.lone ?_
    rw [setWorker_lifecycle, setWorker_dropped] at apart
    generalize worker.phase = phase at made
    cases made with
    | tore => exact .inr (apart.resolve_left fun impossible => by cases impossible)
    | _ => exact apart
  | dozed => exact exclusive.lone apart

theorem goal?_called {call : Call κ} (other : call ≠ .drop) : call.phase.goal? ≠ some .drop := by
  cases call with
  | drop => exact absurd rfl other
  | _ => exact fun impossible => by cases impossible

theorem goal?_of_callerTurn {c : Nat} {phase later : CallPhase κ} {next : Option (CallPhase κ)}
    (turn : CallerTurn p c phase next q events) (known : next = some later)
    (goal : later.goal? = some .drop) : phase.goal? = some .drop := by
  cases turn with
  | abandoned =>
    rw [(Goal.goal?_of_next known).1] at goal
    cases goal
  | put | closed => exact (Goal.goal?_of_next known).1.symm.trans goal
  | counted | joined =>
    cases known
    exact goal
  | dropping => rfl
  | _ => cases known <;> cases goal

theorem dropping_turn (exclusive : p.Exclusive) (turn : p.Turn events q) (c : Nat)
    (phase : CallPhase κ) (there : q.call? c = some phase) (goal : phase.goal? = some .drop) :
    q.dropped = true := by
  cases turn with
  | called _ _ free other =>
    rw [call?_called p _ free] at there
    split at there
    · cases there
      exact absurd goal (goal?_called other)
    · exact exclusive.dropping c phase there goal
  | dropped => rfl
  | caller found made =>
    have kept : p.dropped = true := by
      rw [call?_caller found made] at there
      split at there
      · exact exclusive.dropping _ _ found (goal?_of_callerTurn made there goal)
      · exact exclusive.dropping c phase there goal
    rw [goOn_dropped]
    cases made <;> exact kept
  | @worker w worker new r _ found made =>
    have kept : p.dropped = true := by
      rcases call?_worker made c with same | woken
      · exact exclusive.dropping c phase (same ▸ there) goal
      · rw [woken] at there
        obtain ⟨old, known, rfl⟩ := Option.map_eq_some_iff.mp there
        exact exclusive.dropping c old known (goal?_woken old ▸ goal)
    rw [setWorker_dropped]
    generalize worker.phase = phase at made
    cases made <;> exact kept
  | dozed => exact exclusive.dropping c phase there goal

theorem isSubmit_of_last {goal : Goal} (last : goal = .drop ∨ goal.isAbandon = true) :
    goal.isSubmit = false := by
  rcases last with rfl | abandon
  · rfl
  · cases goal <;> first | rfl | cases abandon

theorem joining_of_next {goal other : Goal} {more next : Nat}
    (known : goal.next (κ := κ) more = some (.joining next other)) :
    more = 0 ∧ other = goal ∧ (goal = .drop ∨ goal.isAbandon = true) := by
  cases more with
  | zero =>
    cases goal with
    | submit | close => cases known
    | drop => cases known; exact ⟨rfl, rfl, .inl rfl⟩
    | abandon error => cases known; exact ⟨rfl, rfl, .inr rfl⟩
  | succ more => cases known

theorem joining_caller (staged : p.Staged) (proper : p.Proper) (balanced : p.Balanced)
    (exclusive : p.Exclusive) {c next : Nat} {goal : Goal}
    {phase : CallPhase κ} {later : Option (CallPhase κ)} (there : p.call? c = some phase)
    (turn : CallerTurn p c phase later q events) (after : (q.goOn c later).Staged)
    (known : later = some (.joining next goal)) :
    (q.goOn c later).isEnding = true ∧ (goal = .drop ∨ goal.isAbandon = true) := by
  have step : p.Turn events (q.goOn c later) := .caller there turn
  have stays : p.isEnding = true → (q.goOn c later).isEnding = true :=
    ending_turn proper balanced step after
  cases turn with
  | @put more g =>
    obtain ⟨rfl, rfl, kind⟩ := joining_of_next known
    refine ⟨stays ?_, kind⟩
    -- the termination that was just put was due
    have due : 1 ≤ p.terminationLoad := by
      have many := isSubmit_of_last kind
      have here := le_callSum CallPhase.toCome there
      simp only [CallPhase.toCome, many, Bool.false_eq_true, if_false] at here
      simp only [terminationLoad]
      omega
    cases ending : p.isEnding with
    | true => rfl
    | false =>
      rw [balanced.load, ending] at due
      cases due
  | abandoned =>
    have building := staged.building there
    obtain ⟨rfl, _⟩ := building.eq_starting there
    obtain ⟨_, rfl, kind⟩ := joining_of_next known
    exact ⟨isEnding_abandoned building after.callers, kind⟩
  | closed =>
    obtain ⟨none, _⟩ := joining_of_next known
    exact absurd none (Nat.ne_of_gt p.size.workers_pos)
  | dropping shut =>
    cases known
    refine ⟨stays ?_, .inl rfl⟩
    rw [(staged.running_of_call there rfl rfl).isEnding_eq staged, shut]
    rfl
  | joined =>
    cases known
    obtain ⟨ending, kind⟩ := exclusive.joining c _ _ there
    exact ⟨stays ending, kind⟩
  | _ => cases known

theorem exclusive_turn (staged : p.Staged) (proper : p.Proper) (balanced : p.Balanced)
    (exclusive : p.Exclusive) (turn : p.Turn events q) (after : q.Staged) : q.Exclusive := by
  refine ⟨lone_turn exclusive turn, dropping_turn exclusive turn, ?_⟩
  intro c next goal there
  have stays := ending_turn proper balanced turn after
  have kept : p.call? c = some (.joining next goal) →
      q.isEnding = true ∧ (goal = .drop ∨ goal.isAbandon = true) := fun found =>
    ⟨stays (exclusive.joining c next goal found).1, (exclusive.joining c next goal found).2⟩
  cases turn with
  | @called _ call _ _ free =>
    rw [call?_called p _ free] at there
    split at there
    · cases call <;> cases there
    · exact kept there
  | dropped => cases List.mem_singleton.mp (mem_of_call? there)
  | @caller d phase later r events found made =>
    rw [call?_caller found made] at there
    split at there
    · exact joining_caller staged proper balanced exclusive found made after there
    · exact kept there
  | worker found made =>
    rcases call?_worker made c with same | woken
    · exact kept (same ▸ there)
    · rw [woken] at there
      obtain ⟨old, known, same⟩ := Option.map_eq_some_iff.mp there
      cases old <;> first | (cases same; done) | exact kept (known.trans (congrArg some same))
  | dozed => exact kept there

theorem exclusive_new (size : PoolSize) : (new size : Pool κ).Exclusive := by
  refine ⟨fun _ => Nat.le_refl 1, ?_, ?_⟩
  · intro c phase there goal
    cases List.mem_singleton.mp (mem_of_call? there)
    cases goal
  · intro c next goal there
    cases List.mem_singleton.mp (mem_of_call? there)

/-- What holds of a pool after every run, given what happened in it. -/
structure Sound (events : List (Event κ)) (p : Pool κ) : Prop where
  staged : p.Staged
  proper : p.Proper
  linked : p.Linked
  balanced : p.Balanced
  guarded : p.Guarded
  exclusive : p.Exclusive
  accounted : Accounted events p
  recorded : Recorded events p

theorem sound_new (size : PoolSize) : Sound [] (new size : Pool κ) where
  staged := staged_new size
  proper := proper_new size
  linked := linked_new size
  balanced := balanced_new size
  guarded := guarded_new size
  exclusive := exclusive_new size
  accounted := accounted_new size
  recorded := recorded_new size

theorem sound_turn {more : List (Event κ)} (sound : Sound events p) (turn : p.Turn more q) :
    Sound (events ++ more) q := by
  have staged : q.Staged := by
    refine staged_turn sound.staged (fun w worker ticket there tearing => ?_) turn
    have found := phase?_of_worker? there
    rw [tearing] at found
    exact running_of_tearing sound.staged sound.proper sound.balanced found
  exact {
    staged
    proper := proper_turn sound.proper turn
    linked := linked_turn sound.staged sound.proper sound.linked turn
    balanced :=
      balanced_turn sound.staged sound.proper sound.linked sound.balanced turn staged
    guarded := guarded_turn sound.guarded turn
    exclusive :=
      exclusive_turn sound.staged sound.proper sound.balanced sound.exclusive turn staged
    accounted := accounted_turn sound.linked sound.accounted turn
    recorded := recorded_turn sound.accounted sound.linked sound.proper sound.recorded turn }

theorem Run.sound {size : PoolSize} (run : Run (.new size) events p) : Sound events p :=
  run.induct (sound_new size) sound_turn

theorem Run.induct_sound {size : PoolSize} {motive : List (Event κ) → Pool κ → Prop}
    (new : motive [] (.new size))
    (turn : ∀ {events : List (Event κ)} {p q : Pool κ} {more : List (Event κ)},
      Sound events p → motive events p → p.Turn more q → motive (events ++ more) q)
    (run : Run (.new size) events p) : motive events p :=
  (@Run.induct κ size (fun events p => Sound events p ∧ motive events p) ⟨sound_new size, new⟩
    (fun both made => ⟨sound_turn both.1 made, turn both.1 both.2 made⟩) events p run).2

end Pool

end Spool
