import Spool.Proofs.Pool.Dropping

/-!
What one thread asks of a pool, as a script: submissions, and changes of the move mode in between.
A sequential pool would make a job of each submission with the mode last set before it. Whatever
the other threads do, the jobs enter the queue as if there were no others.
-/

namespace Spool

variable {κ : Type}

inductive Instruction
  | submit (submission : Submission)
  | switch (on : Bool)
  deriving DecidableEq, Repr

/-- The jobs that are made of a script, one after the other. -/
def sequential (move : Bool) : List Instruction → List Job
  | [] => []
  | .submit submission :: rest => submission.job move :: sequential move rest
  | .switch on :: rest => sequential on rest

def lastMode (move : Bool) : List Instruction → Bool
  | [] => move
  | .submit _ :: rest => lastMode move rest
  | .switch on :: rest => lastMode on rest

theorem sequential_append (move : Bool) (script rest : List Instruction) :
    sequential move (script ++ rest) =
      sequential move script ++ sequential (lastMode move script) rest := by
  induction script generalizing move with
  | nil => rfl
  | cons instruction script ih => cases instruction <;> simp [sequential, lastMode, ih]

theorem lastMode_append (move : Bool) (script rest : List Instruction) :
    lastMode move (script ++ rest) = lastMode (lastMode move script) rest := by
  induction script generalizing move with
  | nil => rfl
  | cons instruction script ih => cases instruction <;> simp [lastMode, ih]

/-- The instruction that begins, with the thread that gives it. -/
def Event.instruction? : Event κ → Option (Nat × Instruction)
  | .called c (.submit submission) => some (c, .submit submission)
  | .called c (.setMoveMode on) => some (c, .switch on)
  | _ => none

namespace CallPhase

/-- The call carries out an instruction. -/
def isScripted (phase : CallPhase κ) : Bool :=
  phase.errand = .submit || phase.errand = .switch

/-- The job of the submission that the call carries out, until it is in the queue. -/
def inHand? (move : Bool) (offered : Option Job) : CallPhase κ → Option Job
  | .opening submission | .making submission => some (submission.job move)
  | .counting job _ .submit => some job
  | .putting _ .submit => offered
  | _ => none

/-- The mode that holds for the next submission. -/
def nextMode (move : Bool) : CallPhase κ → Bool
  | .switching on => on
  | _ => move

theorem inHand?_woken (phase : CallPhase κ) (move : Bool) (offered : Option Job) :
    (Pool.CallPhase.woken phase).inHand? move offered = phase.inHand? move offered ∧
      (Pool.CallPhase.woken phase).nextMode move = phase.nextMode move := by
  cases phase <;> exact ⟨rfl, rfl⟩

theorem inHand?_of_not_scripted {phase : CallPhase κ} (other : phase.isScripted = false)
    (move : Bool) (offered : Option Job) :
    phase.inHand? move offered = none ∧ phase.nextMode move = move := by
  cases phase with
  | opening | making | switching => cases other
  | counting _ _ goal | putting _ goal => cases goal <;> first | exact ⟨rfl, rfl⟩ | cases other
  | _ => exact ⟨rfl, rfl⟩

end CallPhase

namespace Pool

variable {p q : Pool κ} {events more : List (Event κ)} {c : Nat}

def instructions (events : List (Event κ)) : List (Nat × Instruction) :=
  events.filterMap Event.instruction?

def script (events : List (Event κ)) : List Instruction :=
  (instructions events).map Prod.snd

/-- The jobs with work in them. -/
def works (tickets : List Ticket) : List Job :=
  (tickets.filter fun ticket => !ticket.job.isTermination).map (·.job)

theorem instructions_append :
    instructions (events ++ more) = instructions events ++ instructions more :=
  List.filterMap_append

theorem script_append : script (events ++ more) = script events ++ script more := by
  simp only [script, instructions_append, List.map_append]

theorem works_append (tickets rest : List Ticket) :
    works (tickets ++ rest) = works tickets ++ works rest := by
  simp only [works, List.filter_append, List.map_append]

/-- The job that the caller's put brings. -/
def offered? (p : Pool κ) (c : Nat) : Option Job :=
  (p.queue.putter? (.caller c)).map (·.item.job)

def inHand? (p : Pool κ) (c : Nat) : Option Job :=
  (p.call? c).bind (CallPhase.inHand? p.moveMode (p.offered? c))

def nextMode (p : Pool κ) (c : Nat) : Bool :=
  ((p.call? c).map (CallPhase.nextMode p.moveMode)).getD p.moveMode

section Offered

theorem offered?_of_samePutters (same : p.queue.SamePutters q.queue) :
    q.offered? c = p.offered? c := by
  have key : ∀ putters : List (Putter Thread Ticket),
      (putters.find? fun putter => putter.thread = .caller c).map (·.item.job) =
        ((putters.map fun putter => (putter.thread, putter.item)).find?
          fun entry => entry.1 = .caller c).map (·.2.job) := by
    intro putters
    rw [List.find?_map, Option.map_map]
    rfl
  simp only [offered?, Queue.putter?]
  rw [key, key, show q.queue.putters.map _ = _ from same]

theorem offered?_beginPut {d : Nat} {ticket : Ticket} (apart : d ≠ c)
    (queue : q.queue = p.queue.beginPut (.caller d) ticket) : q.offered? c = p.offered? c := by
  have other : ¬ Thread.caller d = .caller c := fun same => apart (Thread.caller.inj same)
  simp [offered?, Queue.putter?, queue, List.find?_append, other]

theorem offered?_append {d : Nat} {putter : Putter Thread Ticket} {woken : Option Thread}
    (apart : d ≠ c) (thread : putter.thread = .caller d)
    (queue : q.queue = (p.queue.append putter).wakeGetter woken) :
    q.offered? c = p.offered? c := by
  simp only [offered?, Queue.putter?, queue, Queue.wakeGetter_putters, Queue.append_putters,
    List.find?_filter]
  congr 2
  funext other
  by_cases same : other.thread = .caller c
  · simp [same, thread, Ne.symm apart]
  · simp [same]

end Offered

/-- How far the pool has come with what one thread asks of it. -/
structure Follows (c : Nat) (events : List (Event κ)) (p : Pool κ) : Prop where
  sole : ∀ d phase, p.call? d = some phase → phase.isScripted = true → d = c
  mode : p.nextMode c = lastMode false (script events)
  jobs : works (appendedTickets events) ++ (p.inHand? c).toList = sequential false (script events)

theorem isScripted_eq {phase later : CallPhase κ} (same : later.errand = phase.errand) :
    later.isScripted = phase.isScripted := by
  simp only [CallPhase.isScripted, same]

theorem sole_turn (sole : ∀ d phase, p.call? d = some phase → phase.isScripted = true → d = c)
    (mine : ∀ entry ∈ instructions more, entry.1 = c) (turn : p.Turn more q) (d : Nat)
    (later : CallPhase κ) (there : q.call? d = some later) (scripted : later.isScripted = true) :
    d = c := by
  rcases inside_turn turn there with ⟨call, rfl, rfl⟩ | ⟨phase, found, same, _⟩
  · cases call with
    | submit submission => exact mine (d, .submit submission) List.mem_cons_self
    | setMoveMode on => exact mine (d, .switch on) List.mem_cons_self
    | _ => cases scripted
  · exact sole d phase found (isScripted_eq same ▸ scripted)

theorem follows_of_same (follows : Follows c events p)
    (sole : ∀ d phase, q.call? d = some phase → phase.isScripted = true → d = c)
    (mode : q.nextMode c = p.nextMode c) (inHand : q.inHand? c = p.inHand? c)
    (silent : script more = []) (put : works (appendedTickets more) = []) :
    Follows c (events ++ more) q := by
  refine ⟨sole, ?_, ?_⟩
  · rw [script_append, silent, List.append_nil, mode]
    exact follows.mode
  · rw [appendedTickets_append, works_append, script_append, silent, put, List.append_nil,
      List.append_nil, inHand]
    exact follows.jobs

theorem idle_of_not_scripted
    (other : ∀ phase, p.call? c = some phase → phase.isScripted = false) :
    p.inHand? c = none ∧ p.nextMode c = p.moveMode := by
  cases there : p.call? c with
  | none => simp [inHand?, nextMode, there]
  | some phase =>
    obtain ⟨none, same⟩ :=
      CallPhase.inHand?_of_not_scripted (other phase there) p.moveMode (p.offered? c)
    simp [inHand?, nextMode, there, none, same]

theorem follows_called_other {d : Nat} {call : Call κ} (follows : Follows c events p)
    (other : call.phase.isScripted = false) (silent : script [Event.called d call] = [])
    (mine : ∀ entry ∈ instructions [Event.called d call], entry.1 = c)
    (turn : p.Turn [.called d call] q) : Follows c (events ++ [.called d call]) q := by
  have sole := sole_turn follows.sole mine turn
  obtain ⟨_, ⟨_, free, rfl⟩ | ⟨_, empty, rfl⟩⟩ := called_cases turn
  · have table := call?_called p call.phase free
    by_cases same : d = c
    · subst same
      obtain ⟨none, mode⟩ := idle_of_not_scripted (p := p) (c := d) (by simp [free])
      obtain ⟨none', mode'⟩ := idle_of_not_scripted
        (p := { p with calls := p.calls ++ [(d, call.phase)] }) (c := d) fun phase there => by
          rw [table, if_pos rfl] at there
          cases there
          exact other
      exact follows_of_same follows sole (mode'.trans mode.symm) (none'.trans none.symm) silent rfl
    · have kept : ({ p with calls := p.calls ++ [(d, call.phase)] } : Pool κ).call? c =
          p.call? c := by
        rw [table, if_neg (Ne.symm same)]
      refine follows_of_same follows sole ?_ ?_ silent rfl
      · simp only [nextMode, kept]
      · simp only [inHand?, kept]
        rfl
  · obtain ⟨none, mode⟩ := idle_of_not_scripted (p := p) (c := c) (by simp [call?, empty])
    obtain ⟨none', mode'⟩ := idle_of_not_scripted
      (p := { p with calls := [(d, .closing .drop)], dropped := true }) (c := c)
      fun phase there => by
        cases List.mem_singleton.mp (mem_of_call? there)
        rfl
    exact follows_of_same follows sole (mode'.trans mode.symm) (none'.trans none.symm) silent rfl

theorem follows_called {d : Nat} {call : Call κ} (follows : Follows c events p)
    (mine : ∀ entry ∈ instructions [Event.called d call], entry.1 = c)
    (turn : p.Turn [.called d call] q) : Follows c (events ++ [.called d call]) q := by
  have sole := sole_turn follows.sole mine turn
  have there := call?_of_called turn
  obtain ⟨none, mode⟩ := idle_of_not_scripted (p := p) (c := d) (by
    simp [(frame_of_called turn).2.2.1])
  have move : call ≠ .drop → q.moveMode = p.moveMode := fun other => by
    obtain ⟨_, ⟨_, _, rfl⟩ | ⟨drop, _⟩⟩ := called_cases turn
    · rfl
    · exact absurd drop other
  cases call with
  | submit submission =>
    obtain rfl : d = c := mine (d, .submit submission) List.mem_cons_self
    have jobs := follows.jobs
    have last := follows.mode
    rw [none] at jobs
    rw [mode] at last
    have same := move fun impossible => by cases impossible
    refine ⟨sole, ?_, ?_⟩
    · rw [script_append, lastMode_append, ← last]
      simp only [nextMode, there, Option.map_some, Option.getD_some]
      exact same
    · rw [script_append, sequential_append, ← jobs, ← last]
      simp [inHand?, there, Call.phase, CallPhase.inHand?, same, Event.appended?, script,
        instructions, Event.instruction?, sequential]
  | setMoveMode on =>
    obtain rfl : d = c := mine (d, .switch on) List.mem_cons_self
    have jobs := follows.jobs
    rw [none] at jobs
    refine ⟨sole, ?_, ?_⟩
    · rw [script_append, lastMode_append]
      simp [nextMode, there, Call.phase, CallPhase.nextMode, script, instructions,
        Event.instruction?, lastMode]
    · rw [script_append, sequential_append, ← jobs]
      simp [inHand?, there, Call.phase, CallPhase.inHand?, Event.appended?, script, instructions,
        Event.instruction?, sequential]
  | _ => exact follows_called_other follows rfl rfl mine turn

theorem script_of_inner {thread : Thread} (inner : p.Inner thread more q) : script more = [] := by
  have none : instructions more = [] := by
    refine List.filterMap_eq_nil_iff.mpr fun event member => ?_
    cases event with
    | called d call => exact absurd member (inner.not_called d call)
    | _ => rfl
  rw [script, none, List.map_nil]

/-- A turn of a caller that does not carry out an instruction puts no work into the queue and
leaves the mode. -/
theorem unscripted_turn {d : Nat} {phase : CallPhase κ} {next : Option (CallPhase κ)}
    (linked : p.Linked) (there : p.call? d = some phase) (other : phase.isScripted = false)
    (turn : CallerTurn p d phase next q more) :
    q.moveMode = p.moveMode ∧ works (appendedTickets more) = [] ∧
      (d ≠ c → q.offered? c = p.offered? c) := by
  cases turn with
  | counted => exact ⟨rfl, rfl, fun apart => offered?_beginPut apart rfl⟩
  | @put left goal putter _ found =>
    obtain ⟨member, thread⟩ := Queue.mem_of_putter? found
    have kind := linked.kinds putter member d left goal thread there
    have stop : putter.item.job.isTermination = true := by
      rw [kind]
      cases goal <;> first | rfl | cases other
    refine ⟨rfl, ?_, fun apart => offered?_append apart thread rfl⟩
    simp [Event.appended?, works, stop]
  | abandoned | closed => exact ⟨rfl, by simp [Event.appended?, works], fun _ => rfl⟩
  | switched => cases other
  | _ => exact ⟨rfl, rfl, fun _ => rfl⟩

theorem follows_unscripted {d : Nat} {phase : CallPhase κ} {next : Option (CallPhase κ)}
    (linked : p.Linked) (follows : Follows c events p) (there : p.call? d = some phase)
    (other : phase.isScripted = false) (turn : CallerTurn p d phase next q more) :
    Follows c (events ++ more) (q.goOn d next) := by
  have step : p.Turn more (q.goOn d next) := .caller there turn
  have silent := script_of_inner (.caller there turn)
  have sole := sole_turn follows.sole (fun entry member => by
    have none : instructions more = [] := List.map_eq_nil_iff.mp silent
    rw [none] at member
    cases member) step
  obtain ⟨move, put, offered⟩ := unscripted_turn (c := c) linked there other turn
  have table := call?_caller there turn c
  by_cases same : c = d
  · subst same
    rw [if_pos rfl] at table
    obtain ⟨none, mode⟩ := idle_of_not_scripted (p := p) (c := c) fun phase found => by
      cases there.symm.trans found
      exact other
    obtain ⟨none', mode'⟩ := idle_of_not_scripted (p := q.goOn c next) (c := c)
      fun later found => by
        rw [table] at found
        subst found
        exact (isScripted_eq (errand_caller turn)).trans other
    refine follows_of_same follows sole ?_ (none'.trans none.symm) silent put
    rw [mode', mode, goOn_moveMode, move]
  · rw [if_neg same] at table
    refine follows_of_same follows sole ?_ ?_ silent put
    · simp only [nextMode, table, goOn_moveMode, move]
    · have kept : (q.goOn d next).offered? c = p.offered? c := by
        rw [← offered (Ne.symm same)]
        simp only [offered?, goOn_queue]
      simp only [inHand?, table, goOn_moveMode, move, kept]

theorem offered?_of_begun (linked : p.Linked) {job : Job} {serial left : Nat} {goal : Goal}
    (there : p.call? c = some (.counting job left goal))
    (queue : q.queue = p.queue.beginPut (.caller c) ⟨serial, job⟩) : q.offered? c = some job := by
  have free : p.queue.putters.find? (fun putter => putter.thread = .caller c) = none := by
    refine List.find?_eq_none.mpr fun putter member same => ?_
    obtain ⟨d, _, _, thread, putting⟩ :=
      (linked.putters putter.thread).mp (List.mem_map.mpr ⟨putter, member, rfl⟩)
    rw [of_decide_eq_true same] at thread
    cases thread
    cases there.symm.trans putting
  simp [offered?, Queue.putter?, queue, List.find?_append, free]

/-- A turn that carries out an instruction keeps the mode that holds next, and the job in hand goes
into the queue. -/
theorem scripted_turn {phase : CallPhase κ} {next : Option (CallPhase κ)} (sound : Sound events p)
    (quiet : p.isEnding = true → p.Quiet) (there : p.call? c = some phase)
    (scripted : phase.isScripted = true) (turn : CallerTurn p c phase next q more) :
    (next.map (CallPhase.nextMode q.moveMode)).getD q.moveMode = phase.nextMode p.moveMode ∧
      works (appendedTickets more) ++
          (next.bind (CallPhase.inHand? q.moveMode (q.offered? c))).toList =
        (phase.inHand? p.moveMode (p.offered? c)).toList := by
  have fits := sound.proper.calls c phase there
  cases turn with
  | opened => exact ⟨rfl, rfl⟩
  | @refused submission shut =>
    have running := sound.staged.running_of_call there rfl rfl
    have ending : p.isEnding = true := by
      rw [running.isEnding_eq sound.staged, shut]
      rfl
    cases quiet ending c _ there
  | made => exact ⟨rfl, rfl⟩
  | @counted job left goal =>
    cases goal with
    | submit =>
      have offered := offered?_of_begun (q := { p with
        issued := p.issued + 1
        pending := p.pending + 1
        queue := p.queue.beginPut (.caller c) ⟨p.issued, job⟩ }) sound.linked there rfl
      refine ⟨rfl, ?_⟩
      simp [CallPhase.inHand?, offered, Event.appended?, works]
    | close | drop | abandon => cases scripted
  | @put left goal putter woken found =>
    cases goal with
    | submit =>
      obtain rfl : left = 0 := fits rfl
      obtain ⟨member, _⟩ := Queue.mem_of_putter? found
      have kind := sound.linked.kinds putter member c 0 .submit (Queue.mem_of_putter? found).2 there
      refine ⟨rfl, ?_⟩
      simp [Goal.next, Goal.heard, CallPhase.inHand?, offered?, found, Event.appended?, works, kind,
        Goal.isSubmit]
    | close | drop | abandon => cases scripted
  | @closed goal =>
    cases goal with
    | submit => cases fits
    | close | drop | abandon => cases scripted
  | @late goal =>
    cases goal with
    | submit => cases fits
    | close | drop | abandon => cases scripted
  | @joined _ goal =>
    rcases (sound.exclusive.joining c _ _ there).2 with rfl | abandon
    · cases scripted
    · cases goal <;> first | cases abandon; done | cases scripted
  | @allJoined _ goal =>
    rcases (sound.exclusive.joining c _ _ there).2 with rfl | abandon
    · cases scripted
    · cases goal <;> first | cases abandon; done | cases scripted
  | switched => exact ⟨rfl, rfl⟩
  | _ => cases scripted

theorem follows_caller {d : Nat} {phase : CallPhase κ} {next : Option (CallPhase κ)}
    (sound : Sound events p) (quiet : p.isEnding = true → p.Quiet) (follows : Follows c events p)
    (there : p.call? d = some phase) (turn : CallerTurn p d phase next q more) :
    Follows c (events ++ more) (q.goOn d next) := by
  cases scripted : phase.isScripted with
  | false => exact follows_unscripted sound.linked follows there scripted turn
  | true =>
    -- the thread itself: what it has in hand moves on, or enters the queue
    obtain rfl := follows.sole d phase there scripted
    have silent := script_of_inner (.caller there turn)
    have sole := sole_turn follows.sole (fun entry member => by
      have none : instructions more = [] := List.map_eq_nil_iff.mp silent
      rw [none] at member
      cases member) (.caller there turn)
    obtain ⟨mode, jobs⟩ := scripted_turn sound quiet there scripted turn
    have table : (q.goOn d next).call? d = next := by rw [call?_caller there turn, if_pos rfl]
    have last := follows.mode
    have sofar := follows.jobs
    simp only [nextMode, there, Option.map_some, Option.getD_some] at last
    simp only [inHand?, there, Option.bind_some] at sofar
    refine ⟨sole, ?_, ?_⟩
    · rw [script_append, silent, List.append_nil, ← last, ← mode]
      simp only [nextMode, table, goOn_moveMode]
    · rw [script_append, silent, List.append_nil, ← sofar, ← jobs, appendedTickets_append,
        works_append, List.append_assoc]
      simp only [inHand?, table, goOn_moveMode, offered?, goOn_queue]

theorem follows_turn (sound : Sound events p) (quiet : p.isEnding = true → p.Quiet)
    (mine : ∀ entry ∈ instructions more, entry.1 = c) (follows : Follows c events p)
    (turn : p.Turn more q) : Follows c (events ++ more) q := by
  have step := turn
  cases turn with
  | called | dropped => exact follows_called follows mine step
  | caller there made => exact follows_caller sound quiet follows there made
  | @worker w worker new r _ there made =>
    have silent := script_of_inner (.worker there made)
    have put : works (appendedTickets more) = [] := by
      generalize worker.phase = phase at made
      cases made <;> rfl
    have putters : p.queue.SamePutters r.queue := by
      generalize worker.phase = phase at made
      cases made with
      | stopped | fetched => exact Queue.samePutters_remove ..
      | _ => rfl
    have offered : (r.setWorker w new).offered? c = p.offered? c := offered?_of_samePutters putters
    have move : (r.setWorker w new).moveMode = p.moveMode := by
      generalize worker.phase = phase at made
      cases made <;> rfl
    have kept : (r.setWorker w new).nextMode c = p.nextMode c ∧
        (r.setWorker w new).inHand? c = p.inHand? c := by
      simp only [nextMode, inHand?, move, offered]
      rcases call?_worker made c with same | woken
      · rw [same]
        exact ⟨rfl, rfl⟩
      · rw [woken]
        cases p.call? c with
        | none => exact ⟨rfl, rfl⟩
        | some phase =>
          obtain ⟨hand, mode⟩ := CallPhase.inHand?_woken phase p.moveMode (p.offered? c)
          exact ⟨mode, hand⟩
    exact follows_of_same follows (sole_turn follows.sole mine step) kept.1 kept.2 silent put
  | @dozed queue doze =>
    have offered : ({ p with queue } : Pool κ).offered? c = p.offered? c :=
      offered?_of_samePutters (Queue.samePutters_of_doze doze)
    refine follows_of_same follows (sole_turn follows.sole mine step) rfl ?_ rfl rfl
    simp only [inHand?, offered]
    rfl

/-- However the threads interleave, the jobs of a script enter the queue one after the other. -/
theorem Run.follows {size : PoolSize} (run : Run (.new size) events p)
    (orderly : SubmissionsFirst events) (mine : ∀ entry ∈ instructions events, entry.1 = c) :
    Follows c events p := by
  induction run with
  | start =>
    have other : ∀ d phase, (new size : Pool κ).call? d = some phase →
        phase.isScripted = false := by
      intro d phase there
      cases List.mem_singleton.mp (mem_of_call? there)
      rfl
    obtain ⟨none, mode⟩ := idle_of_not_scripted (other c)
    refine ⟨fun d phase there scripted => ?_, mode, by rw [none]; rfl⟩
    rw [other d phase there] at scripted
    cases scripted
  | @next events mid last move more goes made ih =>
    refine follows_turn goes.sound (fun ending => ?_) (fun entry member => ?_)
      (ih orderly.of_append fun entry member => ?_) (turn_of_step? made)
    · exact (goes.sorted_of_orderly orderly.of_append ending).quiet
    · exact mine entry (by rw [instructions_append]; exact List.mem_append_right _ member)
    · exact mine entry (by rw [instructions_append]; exact List.mem_append_left _ member)

end Pool

end Spool
