import Spool.Proofs.Pool.Removals

/-!
Submissions and the end of the transaction. Once nobody is inside a submission and nobody begins
one, no more work comes into the queue: terminations stand behind all work, and when a worker has
taken a termination, nothing but terminations is left.
-/

namespace Spool

variable {κ : Type}

/-- The call may close the transaction. -/
def Call.closes : Call κ → Bool
  | .endTransaction | .drop => true
  | _ => false

def Call.submits : Call κ → Bool
  | .submit _ => true
  | _ => false

def CallPhase.isSubmitting : CallPhase κ → Bool
  | .opening _ | .making _ => true
  | .counting _ _ goal | .putting _ goal => goal.isSubmit
  | _ => false

theorem Goal.not_submitting_of_next {goal : Goal} {more : Nat} {phase : CallPhase κ}
    (fits : goal.isSubmit = true → more = 0) (next : goal.next more = some phase) :
    phase.isSubmitting = false := by
  cases more with
  | zero =>
    cases goal with
    | submit | close => cases next
    | drop | abandon error => cases next; rfl
  | succ more =>
    cases next
    cases goal with
    | submit => cases fits rfl
    | close | drop | abandon error => rfl

theorem Goal.not_closing_of_next {goal other : Goal} {more : Nat} :
    goal.next (κ := κ) more ≠ some (.closing other) := by
  cases more with
  | zero => cases goal <;> exact fun known => by cases known
  | succ more => exact fun known => by cases known

namespace Pool

variable {p q : Pool κ} {events more : List (Event κ)}

/-- Nobody is inside a submission. -/
def Quiet (p : Pool κ) : Prop :=
  ∀ c phase, p.call? c = some phase → phase.isSubmitting = false

theorem submitting_of_callerTurn (proper : p.Proper) {c : Nat} {phase later : CallPhase κ}
    {next : Option (CallPhase κ)} (there : p.call? c = some phase)
    (turn : CallerTurn p c phase next q more) (known : next = some later) :
    later.isSubmitting = phase.isSubmitting := by
  have fits := proper.calls c phase there
  cases turn with
  | abandoned =>
    exact Goal.not_submitting_of_next (fun impossible => by cases impossible) known
  | closed =>
    refine Goal.not_submitting_of_next (fun submit => ?_) known
    rw [show _ = false from fits] at submit
    cases submit
  | @put left goal =>
    have none := Goal.not_submitting_of_next fits known
    cases submits : goal.isSubmit with
    | false => rw [none, CallPhase.isSubmitting, submits]
    | true =>
      have last : left = 0 := fits submits
      subst last
      cases goal with
      | submit => cases known
      | close | drop | abandon error => cases submits
  | _ => cases known <;> rfl

theorem quiet_turn (proper : p.Proper) (quiet : p.Quiet) (turn : p.Turn more q)
    (none : ∀ c submission, .called c (.submit submission) ∉ more) : q.Quiet := by
  intro d phase there
  cases turn with
  | @called c call _ _ free =>
    rw [call?_called p _ free] at there
    split at there
    · cases there
      cases call with
      | submit submission => exact absurd List.mem_cons_self (none c submission)
      | _ => rfl
    · exact quiet d phase there
  | dropped =>
    cases List.mem_singleton.mp (mem_of_call? there)
    rfl
  | caller found made =>
    rw [call?_caller found made] at there
    split at there
    · rw [submitting_of_callerTurn proper found made there]
      exact quiet _ _ found
    · exact quiet d phase there
  | worker found made =>
    rcases call?_worker made d with same | woken
    · exact quiet d phase (same ▸ there)
    · rw [woken] at there
      obtain ⟨old, known, rfl⟩ := Option.map_eq_some_iff.mp there
      have before := quiet d old known
      cases old <;> exact before
  | dozed => exact quiet d phase there

theorem uninitialized_of_turn (turn : p.Turn more q) (early : q.lifecycle = .uninitialized) :
    p.lifecycle = .uninitialized ∧ ∀ c call, .called c call ∉ more := by
  cases turn with
  | called begun | dropped begun => exact absurd early begun
  | dozed => exact ⟨early, fun _ _ => List.not_mem_nil⟩
  | caller _ made =>
    rw [goOn_lifecycle] at early
    cases made with
    | built | opened | closed => cases early
    | _ => exact ⟨early, by simp [not_heard]⟩
  | @worker _ worker _ _ _ _ made =>
    rw [setWorker_lifecycle] at early
    generalize worker.phase = phase at made
    cases made with
    | tore => cases early
    | _ => exact ⟨early, by simp⟩

/-- There is nothing but terminations to put, or a worker took one. -/
def Stopping (p : Pool κ) : Prop :=
  p.lifecycle = .uninitialized ∨ 0 < p.workerSum stopWeight

/-- Terminations stand behind all work, and work is left only while no worker stopped. -/
structure Sorted (p : Pool κ) : Prop where
  quiet : p.Quiet
  items : ∃ works stops, p.queue.items = works ++ stops ∧
    (∀ ticket ∈ works, ticket.job.isTermination = false) ∧
    ∀ ticket ∈ stops, ticket.job.isTermination = true
  stopping : p.Stopping → ∀ ticket ∈ p.queue.items, ticket.job.isTermination = true

theorem sorted_of_same (sorted : p.Sorted) (quiet : q.Quiet) (items : q.queue.items = p.queue.items)
    (stops : q.Stopping → p.Stopping) : q.Sorted :=
  ⟨quiet, items ▸ sorted.items, fun stopping => items ▸ sorted.stopping (stops stopping)⟩

theorem sorted_put (sorted : p.Sorted) (quiet : q.Quiet) {ticket : Ticket}
    (kind : ticket.job.isTermination = true) (items : q.queue.items = p.queue.items ++ [ticket])
    (stops : q.Stopping → p.Stopping) : q.Sorted := by
  obtain ⟨works, others, same, work, stop⟩ := sorted.items
  refine ⟨quiet, ⟨works, others ++ [ticket], ?_, work, ?_⟩, ?_⟩
  · rw [items, same, List.append_assoc]
  · intro other member
    rcases List.mem_append.mp member with old | new
    · exact stop other old
    · exact List.mem_singleton.mp new ▸ kind
  · intro stopping other member
    rw [items] at member
    rcases List.mem_append.mp member with old | new
    · exact sorted.stopping (stops stopping) other old
    · exact List.mem_singleton.mp new ▸ kind

theorem sorted_taken (sorted : p.Sorted) (quiet : q.Quiet) {ticket : Ticket} {rest : List Ticket}
    (front : p.queue.items = ticket :: rest) (items : q.queue.items = rest)
    (stops : ticket.job.isTermination = false → q.Stopping → p.Stopping) : q.Sorted := by
  obtain ⟨works, others, same, work, stop⟩ := sorted.items
  rw [front] at same
  cases works with
  | nil =>
    rw [List.nil_append] at same
    have all : ∀ other ∈ rest, other.job.isTermination = true := fun other member =>
      stop other (same ▸ List.mem_cons_of_mem ticket member)
    refine ⟨quiet, ⟨[], rest, items, ?_, all⟩, fun _ => items ▸ all⟩
    intro other member
    cases member
  | cons head works =>
    rw [List.cons_append] at same
    obtain ⟨rfl, rfl⟩ := List.cons.inj same
    have kind := work ticket List.mem_cons_self
    refine ⟨quiet, ⟨works, others, items, ?_, stop⟩, fun stopping => ?_⟩
    · exact fun other member => work other (List.mem_cons_of_mem ticket member)
    · have impossible := sorted.stopping (stops kind stopping) ticket
        (front ▸ List.mem_cons_self)
      rw [kind] at impossible
      cases impossible

theorem sorted_turn (sound : Sound events p) (sorted : p.Sorted) (turn : p.Turn more q)
    (none : ∀ c submission, .called c (.submit submission) ∉ more) : q.Sorted := by
  have quiet := quiet_turn sound.proper sorted.quiet turn none
  have stops : q.workerSum stopWeight = p.workerSum stopWeight → q.Stopping → p.Stopping :=
    fun same => Or.imp (fun early => (uninitialized_of_turn turn early).1) fun some => same ▸ some
  cases turn with
  | called | dropped => exact sorted_of_same sorted quiet rfl (stops rfl)
  | dozed doze => exact sorted_of_same sorted quiet (Queue.items_of_doze doze) (stops rfl)
  | caller there made =>
    have before := sorted.quiet _ _ there
    cases made with
    | @put left goal putter woken found =>
      obtain ⟨member, thread⟩ := Queue.mem_of_putter? found
      have kind := sound.linked.kinds putter member _ left goal thread there
      rw [show goal.isSubmit = false from before] at kind
      exact sorted_put sorted quiet kind (by simp) (stops (by simp [workerSum]))
    | _ =>
      refine sorted_of_same sorted quiet (by simp) (stops ?_)
      simp [workerSum, stopWeight, WorkerPhase.isStopped]
  | @worker w worker new r _ there made =>
    have sum := workerSum_setWorker stopWeight there (frame_of_workerTurn made).2 new
    by_cases idle : worker.phase = .fetching
    · rw [idle] at made sum
      cases made with
      | stopped front stop =>
        refine sorted_taken sorted quiet front (by simp) fun work => ?_
        rw [Job.push?_eq_none_iff.mp stop] at work
        cases work
      | fetched front some =>
        refine sorted_taken sorted quiet front (by simp) fun work => stops ?_
        simpa [stopWeight, WorkerPhase.isStopped, work] using sum
    · have same : stopWeight new.phase = stopWeight worker.phase :=
        congrArg Bool.toNat (isStopped_worker made idle).1
      refine sorted_of_same sorted quiet (queue_of_workerTurn made idle).2.1 (stops ?_)
      omega

/-- A caller is on the list of those inside a submission when its call says so. -/
def Enrolled (events : List (Event κ)) (p : Pool κ) : Prop :=
  ∀ c, c ∈ submitting events ↔ ∃ phase, p.call? c = some phase ∧ phase.isSubmitting = true

theorem submitting_append : submitting (events ++ more) = more.foldl submitters (submitting events) :=
  List.foldl_append

theorem foldl_heard (now : List Nat) (goal : Goal) (c left : Nat) :
    (goal.heard (κ := κ) c left).foldl submitters now =
      if (goal.next (κ := κ) left).isNone then now.filter (· ≠ c) else now := by
  cases left with
  | zero => cases goal <;> rfl
  | succ left => rfl

theorem submitters_caller {c : Nat} {phase : CallPhase κ} {next : Option (CallPhase κ)}
    (turn : CallerTurn p c phase next q more) (now : List Nat) :
    more.foldl submitters now = if next.isNone then now.filter (· ≠ c) else now := by
  cases turn with
  | abandoned | put | closed => exact foldl_heard now _ c _
  | _ => rfl

theorem submitters_worker {w : Nat} {worker new : Worker} {phase : WorkerPhase}
    (turn : WorkerTurn p w worker phase new q more) (now : List Nat) :
    more.foldl submitters now = now := by
  cases turn <;> rfl

theorem enrolled_turn (proper : p.Proper) (enrolled : Enrolled events p) (turn : p.Turn more q) :
    Enrolled (events ++ more) q := by
  intro d
  rw [submitting_append]
  cases turn with
  | @called c call _ _ free =>
    have absent : c ∉ submitting events := by
      rw [enrolled]
      rintro ⟨phase, there, _⟩
      rw [free] at there
      cases there
    have listed : d ∈ [Event.called c call].foldl submitters (submitting events) ↔
        d = c ∧ call.phase.isSubmitting = true ∨ d ∈ submitting events := by
      cases call <;> simp [submitters, Call.phase, CallPhase.isSubmitting]
    rw [listed, enrolled]
    simp only [call?_called p call.phase free]
    by_cases same : d = c
    · subst same
      simp [free]
    · simp [same]
  | @dropped c _ _ empty =>
    have none : ∀ phase, p.call? d ≠ some phase := by
      intro phase there
      have member := mem_of_call? there
      rw [empty] at member
      cases member
    have listed : [Event.called c (Call.drop : Call κ)].foldl submitters (submitting events) =
        submitting events := rfl
    rw [listed, enrolled]
    refine iff_of_false (fun ⟨phase, there, _⟩ => none phase there) ?_
    rintro ⟨phase, there, submits⟩
    cases List.mem_singleton.mp (mem_of_call? there)
    cases submits
  | @caller c phase next r _ there made =>
    have table := call?_caller there made d
    rw [submitters_caller made, table]
    cases next with
    | none =>
      simp only [Option.isNone_none, if_true, List.mem_filter, enrolled d, decide_eq_true_eq]
      split
      · next same => exact iff_of_false (fun both => both.2 same) fun ⟨_, gone, _⟩ => by cases gone
      · next other => exact ⟨fun both => both.1, fun known => ⟨known, other⟩⟩
    | some later =>
      have kept := submitting_of_callerTurn proper there made rfl
      simp only [Option.isNone_some, Bool.false_eq_true, if_false, enrolled d]
      split
      · next same =>
        subst same
        simp only [there, Option.some.injEq, exists_eq_left', kept]
      · rfl
  | worker there made =>
    rw [submitters_worker made, enrolled]
    rcases call?_worker made d with same | woken
    · rw [same]
    · rw [woken]
      constructor
      · rintro ⟨phase, there, submits⟩
        refine ⟨CallPhase.woken phase, by rw [there]; rfl, ?_⟩
        cases phase <;> exact submits
      · rintro ⟨phase, there, submits⟩
        obtain ⟨old, known, rfl⟩ := Option.map_eq_some_iff.mp there
        refine ⟨old, known, ?_⟩
        cases old <;> exact submits
  | dozed => exact enrolled d

theorem enrolled_new (size : PoolSize) : Enrolled [] (new size : Pool κ) := by
  intro c
  refine iff_of_false List.not_mem_nil ?_
  rintro ⟨phase, there, submits⟩
  cases List.mem_singleton.mp (mem_of_call? there)
  cases submits

theorem Run.enrolled {size : PoolSize} (run : Run (.new size) events p) : Enrolled events p :=
  run.induct_sound (enrolled_new size) fun sound before turn =>
    enrolled_turn sound.proper before turn

theorem Enrolled.quiet (enrolled : Enrolled events p) (nobody : submitting events = []) :
    p.Quiet := by
  intro c phase there
  cases submits : phase.isSubmitting with
  | false => rfl
  | true =>
    have listed := (enrolled c).mpr ⟨phase, there, submits⟩
    rw [nobody] at listed
    cases listed

theorem Sorted.empty (sorted : p.Sorted) (sound : Sound events p)
    (stopped : p.workerSum stopWeight = p.workers.length) : p.queue.items = [] := by
  have stopping : p.Stopping := by
    by_cases early : p.lifecycle = .uninitialized
    · exact .inl early
    · refine .inr ?_
      rw [stopped]
      exact (sound.staged.running early).workers ▸ p.size.workers_pos
  have load := sound.balanced.load
  have bound : p.terminationLoad ≤ p.workers.length := by
    rw [load]
    split <;> omega
  simp only [terminationLoad] at bound
  cases items : p.queue.items with
  | nil => rfl
  | cons ticket rest =>
    have member : ticket ∈ p.queue.items := items ▸ List.mem_cons_self
    have one : ticket.stops ≤ _ := le_tally Ticket.stops member
    rw [Ticket.stops, sorted.stopping stopping ticket member, Bool.toNat_true] at one
    omega

theorem called_of_turn {first rest : List (Event κ)} {c : Nat} {call : Call κ}
    (turn : p.Turn more q) (split : more = first ++ .called c call :: rest) :
    first = [] ∧ rest = [] := by
  have member : Event.called c call ∈ more := split ▸ List.mem_append_right _ List.mem_cons_self
  have one : (∃ d other, more = [Event.called d other]) ∨ ∀ d other, .called d other ∉ more := by
    cases turn with
    | called | dropped => exact .inl ⟨_, _, rfl⟩
    | dozed => exact .inr fun _ _ => List.not_mem_nil
    | caller _ made =>
      refine .inr fun d other => ?_
      cases made <;> simp [not_heard]
    | @worker _ worker _ _ _ _ made =>
      refine .inr fun d other => ?_
      generalize worker.phase = phase at made
      cases made <;> simp
  rcases one with ⟨d, other, single⟩ | none
  · rw [single] at split
    cases first with
    | nil => exact ⟨rfl, (List.cons.inj split).2.symm⟩
    | cons head first =>
      have length := congrArg List.length split
      simp at length
  · exact absurd member (none c call)

theorem begun_of_called {c : Nat} {call : Call κ} (turn : p.Turn [.called c call] q) :
    p.lifecycle ≠ .uninitialized := by
  cases turn with
  | called begun | dropped begun => exact begun
  | caller _ made => cases made
  | @worker _ worker _ _ _ _ made =>
    generalize worker.phase = phase at made
    cases made

theorem Run.split {p₀ : Pool κ} {before after : List (Event κ)} {c : Nat} {call : Call κ}
    (run : Run p₀ events p) (cut : events = before ++ .called c call :: after) :
    ∃ mid next, Run p₀ before mid ∧ mid.Turn [.called c call] next ∧ Run next after p := by
  obtain ⟨earlier, mid, first, rest, next, later, begins, turn, goes, rfl, rfl⟩ := run.cut cut
  obtain ⟨rfl, rfl⟩ := called_of_turn turn rfl
  exact ⟨mid, next, (List.append_nil earlier).symm ▸ begins, turn, goes⟩

theorem Run.sound_after {before : List (Event κ)} (sound : Sound before p)
    (run : Run p events q) : Sound (before ++ events) q := by
  induction run with
  | start => rwa [List.append_nil]
  | next _ made ih =>
    rw [← List.append_assoc]
    exact sound_turn ih (turn_of_step? made)

theorem Run.sorted_after {before : List (Event κ)} (sound : Sound before p) (sorted : p.Sorted)
    (run : Run p events q) (none : ∀ c submission, .called c (.submit submission) ∉ events) :
    q.Sorted := by
  induction run with
  | start => exact sorted
  | next goes made ih =>
    refine sorted_turn (goes.sound_after sound) (ih fun c submission => ?_) (turn_of_step? made)
      fun c submission => ?_
    · exact fun member => none c submission (List.mem_append_left _ member)
    · exact fun member => none c submission (List.mem_append_right _ member)

theorem sorted_of_open (sound : Sound events p) (quiet : p.Quiet)
    (begun : p.lifecycle ≠ .uninitialized) (ongoing : p.isEnding = false) : p.Sorted := by
  have load := sound.balanced.load
  rw [ongoing] at load
  simp only [terminationLoad, Bool.false_eq_true, if_false] at load
  have work : ∀ ticket ∈ p.queue.items, ticket.job.isTermination = false := by
    intro ticket member
    have one : ticket.stops ≤ _ := le_tally Ticket.stops member
    cases kind : ticket.job.isTermination with
    | false => rfl
    | true =>
      simp only [Ticket.stops, kind, Bool.toNat_true] at one
      omega
  refine ⟨quiet, ⟨p.queue.items, [], (List.append_nil _).symm, work, ?_⟩, fun stopping => ?_⟩
  · intro ticket member
    cases member
  · have some := stopping.resolve_left begun
    omega

theorem accepts_of_closed (turn : p.Turn more q) {c : Nat} (closed : .closed c ∈ more) :
    p.lifecycle.acceptsJobs = true := by
  cases turn with
  | called | dropped => cases List.mem_singleton.mp closed
  | dozed => cases closed
  | caller _ made =>
    cases made with
    | closed accepts => exact accepts
    | abandoned | put =>
      rcases List.mem_cons.mp closed with impossible | heard
      · cases impossible
      · exact absurd heard (not_heard fun impossible => by cases impossible)
    | _ => simp at closed
  | @worker _ worker _ _ _ _ made =>
    generalize worker.phase = phase at made
    cases made <;> simp at closed

theorem Run.ending_after {before : List (Event κ)} (sound : Sound before p)
    (ending : p.isEnding = true) (run : Run p events q) :
    q.isEnding = true ∧ ∀ c, .closed c ∉ events := by
  induction run with
  | start => exact ⟨ending, fun _ => List.not_mem_nil⟩
  | @next events mid r move more goes made ih =>
    have here := goes.sound_after sound
    have turn := turn_of_step? made
    refine ⟨ending_turn here.proper here.balanced turn (sound_turn here turn).staged ih.1, ?_⟩
    intro c member
    rcases List.mem_append.mp member with old | new
    · exact ih.2 c old
    · have shut := ih.1
      simp only [isEnding, Bool.and_eq_true, Bool.not_eq_true'] at shut
      have accepts := accepts_of_closed turn new
      rw [shut.1] at accepts
      cases accepts

/-- The queue is sorted ever after a call that finds nobody inside a submission in a pool that does
not end yet, when no submission begins later. -/
theorem Run.sorted_of_call {size : PoolSize} {mid next : Pool κ} {before after : List (Event κ)}
    {c : Nat} {call : Call κ} (begins : Run (.new size) before mid)
    (turn : mid.Turn [.called c call] next) (goes : Run next after p)
    (closes : call.closes = true) (nobody : submitting before = [])
    (ongoing : mid.isEnding = false)
    (none : ∀ c submission, .called c (.submit submission) ∉ after) : p.Sorted := by
  have other : ∀ d submission, Event.called d (.submit submission) ∉ [Event.called c call] := by
    intro d submission member
    cases List.mem_singleton.mp member
    cases closes
  have sorted := sorted_of_open begins.sound (begins.enrolled.quiet nobody)
    (begun_of_called turn) ongoing
  exact goes.sorted_after (sound_turn begins.sound turn)
    (sorted_turn begins.sound sorted turn other) none

theorem Run.sorted_of_closed {size : PoolSize} (run : Run (.new size) events p)
    {before after : List (Event κ)} {c d : Nat} {call : Call κ}
    (cut : events = before ++ .called c call :: after) (closes : call.closes = true)
    (nobody : submitting before = []) (closed : .closed d ∈ after)
    (none : ∀ c submission, .called c (.submit submission) ∉ after) : p.Sorted := by
  obtain ⟨mid, next, begins, turn, goes⟩ := run.split cut
  have sound := begins.sound
  have later := sound_turn sound turn
  refine begins.sorted_of_call turn goes closes nobody ?_ none
  cases ending : mid.isEnding with
  | false => rfl
  | true =>
    have still := ending_turn sound.proper sound.balanced turn later.staged ending
    exact absurd closed ((goes.ending_after later still).2 d)

theorem closing_of_callerTurn {c : Nat} {phase : CallPhase κ} {next : Option (CallPhase κ)}
    (turn : CallerTurn p c phase next q more) (goal : Goal) : next ≠ some (.closing goal) := by
  intro known
  cases turn with
  | abandoned | put | closed => exact Goal.not_closing_of_next known
  | _ => cases known

theorem Run.sorted_of_uninitialized {size : PoolSize} (run : Run (.new size) events p)
    (early : p.lifecycle = .uninitialized) : p.Sorted := by
  revert early
  refine run.induct_sound (motive := fun _ p => p.lifecycle = .uninitialized → p.Sorted) ?_ ?_
  · intro _
    refine ⟨?_, ⟨[], [], rfl, ?_, ?_⟩, ?_⟩
    · intro c phase there
      cases List.mem_singleton.mp (mem_of_call? there)
      rfl
    · intro ticket member
      cases member
    · intro ticket member
      cases member
    · intro _ ticket member
      cases member
  · intro events p q more sound before turn early
    obtain ⟨was, none⟩ := uninitialized_of_turn turn early
    exact sorted_turn sound (before was) turn fun c submission => none c _

/-- No transaction is closed while nobody asked for it. -/
structure Unclosed (p : Pool κ) : Prop where
  accepts : p.lifecycle ≠ .uninitialized → p.lifecycle.acceptsJobs = true
  calls : ∀ c goal, p.call? c ≠ some (.closing goal)

theorem unclosed_turn (sound : Sound events p) (unclosed : p.Unclosed) (turn : p.Turn more q)
    (none : ∀ c call, .called c call ∈ more → call.closes = false) : q.Unclosed := by
  cases turn with
  | @called c call _ _ free =>
    refine ⟨unclosed.accepts, fun d goal there => ?_⟩
    rw [call?_called p _ free] at there
    split at there
    · have harmless := none c call List.mem_cons_self
      cases call <;> first | (cases there; done) | cases harmless
    · exact unclosed.calls d goal there
  | @dropped c =>
    have impossible := none c .drop List.mem_cons_self
    cases impossible
  | caller there made =>
    refine ⟨fun begun => ?_, fun d goal found => ?_⟩
    · rw [goOn_lifecycle] at begun ⊢
      cases made with
      | closed => exact absurd there (unclosed.calls _ _)
      | built | opened => rfl
      | _ => exact unclosed.accepts begun
    · rw [call?_caller there made] at found
      split at found
      · exact closing_of_callerTurn made goal found
      · exact unclosed.calls d goal found
  | @worker w worker new r events there made =>
    refine ⟨fun begun => ?_, fun d goal found => ?_⟩
    · rw [setWorker_lifecycle] at begun ⊢
      rw [accepts_worker sound.proper sound.balanced there made]
      refine unclosed.accepts fun unready => begun ?_
      rcases lifecycle_worker sound.staged sound.proper sound.balanced there made with
        same | ⟨running, _⟩
      · exact same.trans unready
      · exact absurd unready running.stage
    · rcases call?_worker made d with same | woken
      · exact unclosed.calls d goal (same ▸ found)
      · rw [woken] at found
        obtain ⟨old, known, same⟩ := Option.map_eq_some_iff.mp found
        cases old <;> first | (cases same; done) | exact unclosed.calls d _ known
  | dozed => exact ⟨unclosed.accepts, unclosed.calls⟩

theorem Run.unclosed {size : PoolSize} (run : Run (.new size) events p)
    (none : ∀ c call, .called c call ∈ events → call.closes = false) : p.Unclosed := by
  revert none
  refine run.induct_sound
    (motive := fun events p => (∀ c call, .called c call ∈ events → call.closes = false) →
      p.Unclosed) ?_ ?_
  · intro _
    refine ⟨fun begun => absurd rfl begun, fun c goal there => ?_⟩
    cases List.mem_singleton.mp (mem_of_call? there)
  · intro events p q more sound before turn none
    refine unclosed_turn sound (before fun c call member => ?_) turn fun c call member => ?_
    · exact none c call (List.mem_append_left _ member)
    · exact none c call (List.mem_append_right _ member)

/-- Every submission is over before a call begins that may close the transaction. -/
def SubmissionsFirst (events : List (Event κ)) : Prop :=
  ∀ before c call after, events = before ++ .called c call :: after → call.closes = true →
    submitting before = [] ∧ ∀ d submission, .called d (.submit submission) ∉ after

/-- A call of the given kind begins. -/
def begins (which : Call κ → Bool) : Event κ → Bool
  | .called _ call => which call
  | _ => false

theorem submissionsFirst_iff : SubmissionsFirst events ↔
    ∀ i, (below : i < events.length) → begins Call.closes events[i] = true →
      submitting (events.take i) = [] ∧
        (events.drop (i + 1)).any (begins Call.submits) = false := by
  constructor
  · intro orderly i below closes
    have cut : events = events.take i ++ events[i] :: events.drop (i + 1) := by
      rw [List.getElem_cons_drop below, List.take_append_drop]
    generalize event : events[i] = here at cut closes
    cases here with
    | called c call =>
      obtain ⟨nobody, none⟩ := orderly _ c call _ cut closes
      refine ⟨nobody, List.any_eq_false.mpr fun event member submits => ?_⟩
      cases event with
      | called d call =>
        cases call with
        | submit submission => exact none d submission member
        | _ => cases submits
      | _ => cases submits
    | _ => cases closes
  · rintro first before c call after rfl closes
    have here := first before.length (by simp)
    simp only [List.getElem_append_right (Nat.le_refl _), Nat.sub_self, List.getElem_cons_zero,
      List.take_left, begins, closes, forall_const] at here
    refine ⟨here.1, fun d submission member => ?_⟩
    have none := List.any_eq_false.mp here.2 (.called d (.submit submission))
    refine none ?_ rfl
    simpa [← List.drop_drop] using member

instance : Decidable (SubmissionsFirst events) :=
  decidable_of_iff _ submissionsFirst_iff.symm

theorem first_closing (events : List (Event κ)) :
    (∀ c call, .called c call ∈ events → call.closes = false) ∨
      ∃ before c call after, events = before ++ .called c call :: after ∧ call.closes = true ∧
        ∀ d other, .called d other ∈ before → other.closes = false := by
  induction events with
  | nil => exact .inl fun _ _ member => by cases member
  | cons event events ih =>
    by_cases here : ∃ c call, event = .called c call ∧ call.closes = true
    · obtain ⟨c, call, rfl, closes⟩ := here
      exact .inr ⟨[], c, call, events, rfl, closes, fun _ _ member => by cases member⟩
    · have harmless : ∀ c call, event = .called c call → call.closes = false :=
        fun c call same => Bool.eq_false_iff.mpr fun closes => here ⟨c, call, same, closes⟩
      rcases ih with none | ⟨before, c, call, after, cut, closes, first⟩
      · refine .inl fun c call member => ?_
        rcases List.mem_cons.mp member with same | later
        · exact harmless c call same.symm
        · exact none c call later
      · refine .inr ⟨event :: before, c, call, after, by rw [cut]; rfl, closes, ?_⟩
        intro d other member
        rcases List.mem_cons.mp member with same | later
        · exact harmless d other same.symm
        · exact first d other later

theorem Run.sorted_of_orderly {size : PoolSize} (run : Run (.new size) events p)
    (orderly : SubmissionsFirst events) (ending : p.isEnding = true) : p.Sorted := by
  by_cases early : p.lifecycle = .uninitialized
  · exact run.sorted_of_uninitialized early
  · simp only [isEnding, Bool.and_eq_true, Bool.not_eq_true'] at ending
    rcases first_closing events with none | ⟨before, c, call, after, cut, closes, first⟩
    · have accepts := (run.unclosed none).accepts early
      rw [ending.1] at accepts
      cases accepts
    · obtain ⟨nobody, none⟩ := orderly before c call after cut closes
      obtain ⟨mid, next, begins, turn, goes⟩ := run.split cut
      refine begins.sorted_of_call turn goes closes nobody ?_ none
      have accepts := (begins.unclosed first).accepts (begun_of_called turn)
      simp only [isEnding, accepts, Bool.not_true, Bool.false_and]

end Pool

end Spool
