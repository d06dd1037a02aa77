import Spool.Proofs.Pool.Callbacks

/-!
What becomes of a job that a worker took. However the store and the callback end their calls, the
job is executed once, by a call of its own kind; its result is written once and handed on once; the
callback in place then is told once, and the job is released once.
-/

namespace Spool

variable {κ : Type}

namespace Pool

variable {p q : Pool κ} {events deeds : List (Event κ)}

section Story

variable {w v : Nat} {ticket other : Ticket} {phase : WorkerPhase}

theorem mem_told {outcome : Outcome} {found : Option κ} {answer : Answer} {event : Event κ}
    (member : event ∈ told w ticket outcome found answer) :
    ∃ callback notice, found = some callback ∧ ticket.job.report outcome = some notice ∧
      (event = .notified w (ticket.finished outcome) callback notice ∨
        event = .answered w (ticket.finished outcome) answer) := by
  cases found with
  | none => cases member
  | some callback =>
    cases report : ticket.job.report outcome with
    | none => simp [told, report] at member
    | some notice =>
      simp only [told, report, List.mem_cons, List.not_mem_nil, or_false] at member
      exact ⟨callback, notice, rfl, rfl, member⟩

theorem removed_not_told {outcome : Outcome} {found : Option κ} {answer : Answer} :
    .removed v other ∉ told w ticket outcome found answer := by
  intro member
  obtain ⟨_, _, _, _, impossible | impossible⟩ := mem_told member <;> cases impossible

theorem removed_of_account (account : Account w ticket phase deeds)
    (member : .removed v other ∈ deeds) : v = w ∧ other = ticket := by
  cases account <;> simpa [execution, removed_not_told] using member

theorem removed_of_closed (closed : Closed w ticket deeds) (member : .removed v other ∈ deeds) :
    v = w ∧ other = ticket := by
  cases closed <;>
    simpa [handling, stopping, execution, removed_not_told] using member

theorem isStopped_of_account (account : Account w ticket phase deeds) :
    phase.isStopped = ticket.job.isTermination := by
  cases account <;> simp [WorkerPhase.isStopped]

theorem notified_of_account {callback : κ} {notice : Notice}
    (account : Account w ticket phase deeds)
    (member : .notified v other callback notice ∈ deeds) :
    other.job.isTermination = false ∧
      ((∃ answer, .answered v other answer ∈ deeds) ∨ v = w ∧ phase = .notifying other) := by
  cases account with
  | notifying outcome found asks =>
    simp [execution] at member
    obtain ⟨rfl, rfl, _⟩ := member
    exact ⟨(ticket.isTermination_finished outcome).trans asks.work, .inr ⟨rfl, rfl⟩⟩
  | releasing outcome found answer asks =>
    simp [execution] at member
    obtain ⟨_, _, rfl, report, same | impossible⟩ := mem_told member
    · cases same
      refine ⟨(ticket.isTermination_finished outcome).trans asks.work, .inl ⟨answer, ?_⟩⟩
      simp [told, report]
    · cases impossible
  | _ => simp [execution] at member

theorem notified_of_closed {callback : κ} {notice : Notice} (closed : Closed w ticket deeds)
    (member : .notified v other callback notice ∈ deeds) :
    other.job.isTermination = false ∧ ∃ answer, .answered v other answer ∈ deeds := by
  cases closed with
  | handled outcome found answer asks =>
    simp [handling, execution] at member
    obtain ⟨_, _, rfl, report, same | impossible⟩ := mem_told member
    · cases same
      refine ⟨(ticket.isTermination_finished outcome).trans asks.work, answer, ?_⟩
      simp [handling, told, report]
    · cases impossible
  | stopped => simp [stopping] at member

theorem prefix_of_account (account : Account w ticket phase deeds)
    (work : ticket.job.isTermination = false) : ∃ kind outcome found answer,
      ticket.Asks kind ∧ deeds <+: handling w kind ticket outcome found answer := by
  cases account with
  | @pushing kind asks =>
    exact ⟨kind, .gaveUp "", none, .returned, asks, ⟨_, rfl⟩⟩
  | @counting kind outcome asks | @countingFailure kind outcome asks | @handing kind outcome asks
  | @testing kind outcome asks | @dispatching kind outcome asks =>
    refine ⟨kind, outcome, none, .returned, asks, ?_⟩
    simp [handling]
  | @notifying kind notice outcome callback asks report =>
    refine ⟨kind, outcome, some callback, .returned, asks, ?_⟩
    simp [handling, told, report]
  | @releasing kind outcome found answer asks =>
    refine ⟨kind, outcome, found, answer, asks, ?_⟩
    simp [handling]
  | stopHanding stop | stopTesting stop | stopDispatching stop | leaving _ stop | tearing _ stop
  | tallying _ stop | stopReleasing _ stop => cases work.symm.trans stop

end Story

theorem mem_of_about {serial c : Nat} {ticket : Ticket} {event : Event κ}
    (record : about serial events = .counted c ticket :: .appended c ticket :: deeds)
    (deed : event ∈ deeds) : event ∈ events := by
  refine (List.mem_filter.mp (?_ : event ∈ about serial events)).1
  rw [record]
  exact List.mem_cons_of_mem _ (List.mem_cons_of_mem _ deed)

theorem Sound.record_of_deed (sound : Sound events p) {event : Event κ} {serial : Nat}
    (member : event ∈ events) (number : event.serial? = some serial)
    (deed : event.counted? = none ∧ event.appended? = none) :
    ∃ c w ticket deeds, ticket.serial = serial ∧
      about serial events = .counted c ticket :: .appended c ticket :: deeds ∧ event ∈ deeds ∧
        (Closed w ticket deeds ∨ ∃ phase, p.phase? w = some phase ∧
          Account w ticket phase deeds) := by
  have listed : event ∈ about serial events :=
    List.mem_filter.mpr ⟨member, by simp [number]⟩
  have late : ∀ c ticket deeds, event ∈ Event.counted c ticket :: .appended c ticket :: deeds →
      event ∈ deeds := by
    intro c ticket deeds known
    rcases List.mem_cons.mp known with rfl | known
    · cases deed.1
    · rcases List.mem_cons.mp known with rfl | known
      · cases deed.2
      · exact known
  have known : serial < p.issued := sound.recorded.lt_issued (List.ne_nil_of_mem listed)
  rcases Nat.eq_zero_or_pos (p.weigh (serialIs serial)) with none | some
  · obtain ⟨c, w, ticket, deeds, same, record, closed⟩ := sound.recorded.gone _ known none
    exact ⟨c, w, ticket, deeds, same, record, late _ _ _ (record ▸ listed), .inl closed⟩
  · rcases held_of_weigh some with ⟨putter, waits, rfl⟩ | ⟨item, waits, rfl⟩ |
      ⟨w, phase, now, there, holds, rfl⟩
    · obtain ⟨c, _, record⟩ := sound.recorded.waiting putter waits
      rw [record] at listed
      cases late c putter.item [] (List.mem_append_left [_] listed)
    · obtain ⟨c, record⟩ := sound.recorded.queued item waits
      rw [record] at listed
      cases late c item [] listed
    · obtain ⟨c, ticket, deeds, same, record, account⟩ :=
        sound.recorded.held w phase now there holds
      exact ⟨c, w, ticket, deeds, same, record, late _ _ _ (record ▸ listed),
        .inr ⟨phase, there, account⟩⟩

theorem Sound.record_of_removed (sound : Sound events p) {w : Nat} {ticket : Ticket}
    (member : .removed w ticket ∈ events) :
    ∃ c deeds, about ticket.serial events = .counted c ticket :: .appended c ticket :: deeds ∧
      (Closed w ticket deeds ∨ ∃ phase, p.phase? w = some phase ∧ Account w ticket phase deeds) := by
  obtain ⟨c, v, other, deeds, _, record, deed, closed | ⟨phase, there, account⟩⟩ :=
    sound.record_of_deed member rfl ⟨rfl, rfl⟩
  · obtain ⟨rfl, rfl⟩ := removed_of_closed closed deed
    exact ⟨c, deeds, record, .inl closed⟩
  · obtain ⟨rfl, rfl⟩ := removed_of_account account deed
    exact ⟨c, deeds, record, .inr ⟨phase, there, account⟩⟩

theorem isNotifying_of_phase {w : Nat} {ticket : Ticket}
    (there : p.phase? w = some (.notifying ticket)) : p.isNotifying = true := by
  obtain ⟨worker, found, phase⟩ := worker?_of_phase? there
  refine List.any_eq_true.mpr ⟨worker, List.mem_of_getElem? found, ?_⟩
  rw [phase]

theorem Sound.notified (sound : Sound events p) {w : Nat} {ticket : Ticket} {callback : κ}
    {notice : Notice} (member : .notified w ticket callback notice ∈ events) :
    ticket.job.isTermination = false ∧
      ((∃ answer, .answered w ticket answer ∈ events) ∨ p.isNotifying = true) := by
  obtain ⟨c, v, other, deeds, _, record, deed, closed | ⟨phase, there, account⟩⟩ :=
    sound.record_of_deed member rfl ⟨rfl, rfl⟩
  · obtain ⟨work, answer, answered⟩ := notified_of_closed closed deed
    refine ⟨work, .inl ⟨answer, mem_of_about record ?_⟩⟩
    exact answered
  · obtain ⟨work, ⟨answer, answered⟩ | ⟨rfl, rfl⟩⟩ := notified_of_account account deed
    · exact ⟨work, .inl ⟨answer, mem_of_about record answered⟩⟩
    · exact ⟨work, .inr (isNotifying_of_phase there)⟩

/-- A callback is taken out when none of its calls is running. -/
theorem cleared_of_turn {first rest : List (Event κ)} {c : Nat} {more : List (Event κ)}
    (turn : p.Turn more q) (split : more = first ++ .cleared c :: rest) :
    first = [] ∧ p.isNotifying = false := by
  have member : Event.cleared c ∈ more := split ▸ List.mem_append_right _ List.mem_cons_self
  cases turn with
  | called | dropped => cases List.mem_singleton.mp member
  | dozed => cases member
  | caller _ made =>
    cases made with
    | cleared quiet =>
      cases first with
      | nil => exact ⟨rfl, quiet⟩
      | cons head first =>
        cases first with
        | nil => cases split
        | cons second first => simp at split
    | _ => simp [not_heard] at member
  | @worker _ worker _ _ _ _ made =>
    generalize worker.phase = phase at made
    cases made <;> simp at member

/-- A job is handled once, by the worker that took it. -/
structure HandledOnce (events : List (Event κ)) (p : Pool κ) : Prop where
  /-- All that is heard of a job with work in it is one story, of which nothing is missing once the
  worker has released the job. -/
  story : ∀ w ticket, .removed w ticket ∈ events → ticket.job.isTermination = false →
    ∃ c kind outcome found answer, ticket.Asks kind ∧
      about ticket.serial events <+:
        .counted c ticket :: .appended c ticket :: handling w kind ticket outcome found answer ∧
      (about ticket.serial events =
          .counted c ticket :: .appended c ticket ::
            handling w kind ticket outcome found answer ∨
        ∃ phase now, p.phase? w = some phase ∧ phase.held? = some now ∧
          now.serial = ticket.serial)
  /-- The job that a store is at work on has no result that could be overwritten. -/
  result : ∀ w ticket, p.phase? w = some (.pushing ticket) → ∀ outcome kind source,
    ticket.job.execute outcome ≠ .error (.completedTwice kind source)
  /-- A worker finds the callback that is in place. -/
  found : ∀ before w ticket found after, events = before ++ .looked w ticket found :: after →
    found = registration before
  /-- Nobody is told of a termination. -/
  untold : ∀ w ticket callback notice, .notified w ticket callback notice ∈ events →
    ticket.job.isTermination = false
  /-- The callback's call may end in any way. -/
  answer : ∀ w answer other,
    (p.notified? w answer).map Prod.fst = (p.notified? w other).map Prod.fst
  /-- When a callback is taken out, its calls are over. -/
  ceased : ∀ before c after, events = before ++ .cleared c :: after →
    ∀ w ticket callback notice, .notified w ticket callback notice ∈ before →
      ∃ answer, .answered w ticket answer ∈ before
  /-- It is not called again unless it was put in place again. -/
  gone : ∀ before c middle w ticket callback notice after,
    events = before ++ .cleared c :: (middle ++ .notified w ticket callback notice :: after) →
      ∃ d, .registered d callback ∈ middle

theorem Run.handled_story {size : PoolSize} (run : Run (.new size) events p) {w : Nat}
    {ticket : Ticket} (member : .removed w ticket ∈ events)
    (work : ticket.job.isTermination = false) : ∃ c kind outcome found answer, ticket.Asks kind ∧
      about ticket.serial events <+:
        .counted c ticket :: .appended c ticket :: handling w kind ticket outcome found answer ∧
      (about ticket.serial events =
          .counted c ticket :: .appended c ticket ::
            handling w kind ticket outcome found answer ∨
        ∃ phase now, p.phase? w = some phase ∧ phase.held? = some now ∧
          now.serial = ticket.serial) := by
  obtain ⟨c, deeds, record, closed | ⟨phase, there, account⟩⟩ :=
    run.sound.record_of_removed member
  · cases closed with
    | @handled kind outcome found answer asks =>
      exact ⟨c, kind, outcome, found, answer, asks, record ▸ List.prefix_refl _, .inl record⟩
    | stopped _ stop => cases work.symm.trans stop
  · obtain ⟨kind, outcome, found, answer, asks, done⟩ := prefix_of_account account work
    obtain ⟨now, holds, same⟩ := held?_of_account account
    refine ⟨c, kind, outcome, found, answer, asks, ?_, .inr ⟨phase, now, there, holds, same⟩⟩
    rw [record]
    exact (List.prefix_cons_inj _).mpr ((List.prefix_cons_inj _).mpr done)

theorem Run.result_written_once {size : PoolSize} (run : Run (.new size) events p) {w : Nat}
    {ticket : Ticket} (there : p.phase? w = some (.pushing ticket)) (outcome : Outcome)
    (kind : PushKind) (source : String) :
    ticket.job.execute outcome ≠ .error (.completedTwice kind source) := by
  obtain ⟨worker, found, phase⟩ := worker?_of_phase? there
  have proper := run.sound.proper.workers w worker found
  rw [phase] at proper
  rw [Job.execute_of_isFresh proper.1 proper.2]
  cases outcome <;> exact fun impossible => by cases impossible

theorem notified?_answer (p : Pool κ) (w : Nat) (answer other : Answer) :
    (p.notified? w answer).map Prod.fst = (p.notified? w other).map Prod.fst := by
  unfold notified?
  split
  · split <;> rfl
  · rfl

theorem Run.over_of_cleared {size : PoolSize} (run : Run (.new size) events p)
    {before after : List (Event κ)} {c : Nat} (split : events = before ++ .cleared c :: after)
    {w : Nat} {ticket : Ticket} {callback : κ} {notice : Notice}
    (member : .notified w ticket callback notice ∈ before) :
    ∃ answer, .answered w ticket answer ∈ before := by
  obtain ⟨earlier, mid, first, rest, next, later, begins, turn, _, rfl, _⟩ := run.cut split
  obtain ⟨rfl, quiet⟩ := cleared_of_turn turn rfl
  rw [List.append_nil] at member ⊢
  refine (begins.sound.notified member).2.resolve_right fun busy => ?_
  rw [quiet] at busy
  cases busy

theorem Run.registered_of_notified {size : PoolSize} (run : Run (.new size) events p)
    {before middle after : List (Event κ)} {c w : Nat} {ticket : Ticket} {callback : κ}
    {notice : Notice} (split : events =
      before ++ .cleared c :: (middle ++ .notified w ticket callback notice :: after)) :
    ∃ d, .registered d callback ∈ middle := by
  rw [← List.cons_append, ← List.append_assoc] at split
  have there := run.notified_eq split
  rw [registration, List.foldl_append] at there
  rcases registered_of_foldl (show middle.foldl callbackAfter none = _ from there) with
    impossible | registered
  · cases impossible
  · exact registered

theorem Run.handled_once {size : PoolSize} (run : Run (.new size) events p) :
    HandledOnce events p where
  story _ _ := run.handled_story
  result _ _ := run.result_written_once
  found _ _ _ _ _ := run.found_eq
  untold _ _ _ _ member := (run.sound.notified member).1
  answer := notified?_answer p
  ceased _ _ _ split _ _ _ _ := run.over_of_cleared split
  gone _ _ _ _ _ _ _ _ := run.registered_of_notified

/-- One worker, and room for one job. -/
def single : PoolSize := ⟨1, 1, by decide, by decide⟩

/-- A transfer, then a transform. The store gives up on the first and keeps the second; the
callback gives up when it is told of the first. -/
def panics : List (Move Nat) :=
  [.start 0 (.ok ()), .caller 0 none, .begin 0 (.setCallback 7), .caller 0 none,
    .begin 0 (.submit (.transfer "in" "out")), .caller 0 none, .caller 0 none, .caller 0 none,
    .caller 0 none, .worker 0, .pushed 0 (.gaveUp "store"), .worker 0, .worker 0, .worker 0,
    .worker 0, .worker 0, .notified 0 (.gaveUp "callback"), .worker 0, .worker 0, .worker 0,
    .begin 0 (.submit (.transform "in" "dir" ".z")), .caller 0 none, .caller 0 none,
    .caller 0 none, .caller 0 none, .worker 0, .pushed 0 (.stored "digest"), .worker 0, .worker 0,
    .worker 0, .worker 0, .notified 0 .returned, .worker 0]

/-- A job of either kind is handled once, whether the store and the callback give up or not. -/
theorem handled_once_of_panics : ∃ change : Change Nat,
    (Pool.new single).follow panics = some change ∧
      Event.began 0 .transfer ⟨0, .transfer ⟨"in", "out", false, none⟩⟩ ∈ change.2 ∧
      Event.began 0 .transform ⟨1, .transform ⟨"in", "dir", ".z", false, none, none⟩⟩ ∈ change.2 ∧
      HandledOnce change.2 change.1 := by
  have played : ((Pool.new single).follow panics).any (fun change =>
      decide (Event.began 0 .transfer ⟨0, .transfer ⟨"in", "out", false, none⟩⟩ ∈ change.2 ∧
        Event.began 0 .transform ⟨1, .transform ⟨"in", "dir", ".z", false, none, none⟩⟩ ∈
          change.2)) = true := by
    decide
  obtain ⟨change, follows, members⟩ := (Option.any_eq_true _ _).mp played
  obtain ⟨transfer, transform⟩ := of_decide_eq_true members
  exact ⟨change, follows, transfer, transform, (Run.of_follow .start follows).handled_once⟩

end Pool

end Spool
