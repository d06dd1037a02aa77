import Spool.Pool.Machine
import Spool.Push.Memory
import Spool.Push.Store
import Spool.Queue.Room
import Spool.Rehearsal.Script

/-!
A pool tried out on a fixed schedule. Its workers have a scripted store, whose jobs can be held back
at a gate, or a real one. After each cue everything goes on until nothing can move. It is noted from
when on the queue's counters may be those of this schedule only.
-/

namespace Spool.Rehearsal

/-- A callback: it notes its tag, and gives up on sources whose name holds a given text. -/
structure Listener where
  tag : String
  givesUpOn : Option String
  deriving DecidableEq, Repr

def Listener.answer (l : Listener) (source : String) : Answer :=
  match l.givesUpOn with
  | none => .returned
  | some text =>
    if Text.holds text.toList source.toList then .gaveUp s!"gave up on {source}" else .returned

/-- What the workers push into. Making the store for the given worker can fail. -/
inductive Cast
  | scripted (fault : Option (Nat × PushError))
  /-- One store in memory, for all. -/
  | memory (fault : Option (Nat × PushError))
  /-- The store that the definition selects. -/
  | definition

/-- The threads that make calls: the builder, the one for calls that may block, and the one for
calls that do not; others are numbered from `firstExtra` on. -/
def background : Nat := Pool.builder + 1

def direct : Nat := background + 1

def firstExtra : Nat := direct + 1

structure PoolScene where
  definition : Definition
  cast : Cast
  pool : Pool Listener
  world : World Memory
  scripts : List (String × Script) := []
  gateClosed : Bool := false
  /-- Workers whose job is held at the gate. -/
  held : List Nat := []
  /-- Stores asked for so far. -/
  asked : Nat := 0
  /-- Threads used so far. -/
  nextCaller : Nat := firstExtra
  /-- Calls that ended since the last cue. -/
  endings : List (Nat × Ending) := []
  /-- Callbacks since the last cue, the newest first. -/
  notices : List (Listener × Notice) := []
  /-- Jobs that a scripted store began since the last cue, the newest first. -/
  begun : List Job := []
  /-- Peak and backpressure of the queue depend on the schedule. -/
  blurred : Bool := false
  /-- The order in which jobs are begun and callbacks called depends on the schedule. -/
  unordered : Bool := false

namespace PoolScene

def keys (s : PoolScene) : KeyStore Memory :=
  match s.cast with
  | .definition => Remote.keyStore (Remote.silent "error sending request") s.definition.description
  | _ => Memory.keyStore Memory.playedFault

def isScripted (s : PoolScene) : Bool :=
  match s.cast with
  | .scripted _ => true
  | _ => false

def note (s : PoolScene) : Event Listener → PoolScene
  | .asked _ => { s with asked := s.asked + 1 }
  | .removed w ticket =>
    if !s.isScripted || ticket.job.isTermination then s
    else
      { s with
        begun := ticket.job :: s.begun
        held := if s.gateClosed then w :: s.held else s.held }
  | .notified _ _ listener notice => { s with notices := (listener, notice) :: s.notices }
  | .ended c ending => { s with endings := (c, ending) :: s.endings }
  | _ => s

def move? (s : PoolScene) (move : Pool.Move Listener) : Option PoolScene :=
  (s.pool.step? move).map fun (pool, events) => events.foldl note { s with pool }

def prepare (s : PoolScene) (worker : Nat) : PoolScene × Except WorkerError Unit :=
  match s.cast with
  | .scripted none | .memory none => (s, .ok ())
  | .scripted (some (failing, e)) | .memory (some (failing, e)) =>
    (s, if worker = failing then .error (.noStore worker e) else .ok ())
  | .definition =>
    match (Store.prepare s.definition).run s.keys s.world with
    | (world, .ok _) => ({ s with world }, .ok ())
    | (world, .error e) => ({ s with world }, .error (.noStore worker e))

def push (s : PoolScene) (job : Job) : PoolScene × Outcome :=
  let store : Option Store :=
    match s.cast with
    | .scripted _ => none
    | .memory _ => some .keyValue
    | .definition => some (.ofDefinition s.definition)
  match store with
  | none =>
    let source := job.source?.getD ""
    (s, ((s.scripts.lookup source).getD (Script.ofName source)).play job)
  | some store =>
    let (world, result) := (store.push job).run s.keys s.world
    ({ s with world }, .ofResult result)

def callerStep? (s : PoolScene) (c : Nat) : Option PoolScene :=
  match s.pool.call? c with
  | none => none
  | some (.starting next) =>
    if next < s.pool.size.workers then
      let (s, reply) := s.prepare next
      s.move? (.start c reply)
    else s.move? (.caller c none)
  | some (.putting ..) =>
    let woken := if s.pool.queue.isFull then none else s.pool.queue.firstAsleep
    s.move? (.caller c woken)
  | some _ => s.move? (.caller c none)

/-- The next step of a worker. A held job goes no further. -/
def workerStep? (s : PoolScene) (w : Nat) : Option PoolScene :=
  match s.pool.worker? w with
  | none => none
  | some worker =>
    match worker.phase with
    | .pushing ticket =>
      if s.held.contains w then none
      else
        let (s, outcome) := s.push ticket.job
        s.move? (.pushed w outcome)
    | .notifying ticket =>
      let answer := s.pool.callback.map (·.answer (ticket.job.source?.getD ""))
      s.move? (.notified w (answer.getD .returned))
    | _ => s.move? (.worker w)

def threadStep? (s : PoolScene) : Thread → Option PoolScene
  | .caller c => s.callerStep? c
  | .worker w => s.workerStep? w

def runThread (thread : Thread) : (fuel : Nat) → PoolScene → Bool → PoolScene × Bool
  | 0, s, moved => (s, moved)
  | fuel + 1, s, moved =>
    match s.threadStep? thread with
    | some s => runThread thread fuel s true
    | none => (s, moved)

def patience : Nat := 1000000

def threads (s : PoolScene) : List Thread :=
  s.pool.calls.map (fun (c, _) => .caller c) ++ (List.range s.pool.workers.length).map .worker

/-- Lets all threads go on, in turn, until none can. -/
def settle : (fuel : Nat) → PoolScene → PoolScene
  | 0, s => s
  | fuel + 1, s =>
    let (s, moved) := s.threads.foldl
      (fun (s, moved) thread => runThread thread patience s moved) (s, false)
    if moved then settle fuel s else s

def ask (s : PoolScene) (c : Nat) (call : Call Listener) : PoolScene :=
  settle patience ((s.move? (.begin c call)).getD s)

def ending? (s : PoolScene) (c : Nat) : Option Ending :=
  s.endings.lookup c

def isBlocked (s : PoolScene) : Bool :=
  (s.pool.call? background).isSome

def waiting (s : PoolScene) : Nat :=
  (s.pool.calls.filter fun (_, phase) =>
    match phase with
    | .locking | .checking | .dozing | .asleep => true
    | _ => false).length

def start (definition : Definition) (cast : Cast) (disk : Disk) (countersHidden : Bool) :
    Except Abort (PoolScene × Option WorkerError) :=
  match Queue.fault? definition.maxPending with
  | some abort => .error abort
  | none =>
    let s := settle patience {
      definition, cast
      pool := .new definition.poolSize
      world := ⟨disk, []⟩
      blurred := countersHidden
      unordered := definition.workers != 1 || countersHidden }
    match s.ending? Pool.builder with
    | some (.notStarted e) => .ok (s, some e)
    | _ => .ok (s, none)

inductive Cue
  | submit (submission : Submission) (script : Option Script)
  | endTransaction
  | hold
  | openGate
  | release (source : String)
  | wait
  | setCallback (listener : Listener)
  | unsetCallback
  | moveMode (on : Bool)
  | look
  /-- So many threads submit so many jobs each, all named after a stem. -/
  | parallel (threads each : Nat) (stem : String) (transform : Bool)
  /-- So many threads end the transaction at once. -/
  | raceEnd (threads : Nat)

inductive Reply
  | ok
  | blocked
  | busy
  | notHeld
  | aborted (abort : Abort)
  | won (count : Nat)

def Reply.ofEnding : Option Ending → Reply
  | some (.aborted abort) => .aborted abort
  | some _ => .ok
  | none => .blocked

def namedSubmission (stem : String) (transform : Bool) (thread i : Nat) : Submission :=
  let source := s!"{stem}{thread}-{i}"
  if transform then .transform source "par" "P" else .transfer source s!"par/{source}"

/-- Every thread submits its next job, until all have submitted theirs. -/
def submitRounds (first threads : Nat) (stem : String) (transform : Bool) :
    List Nat → PoolScene → PoolScene
  | [], s => s
  | i :: rounds, s =>
    let s := (List.range threads).foldl (fun s t =>
      (s.move? (.begin (first + t) (.submit (namedSubmission stem transform t i)))).getD s) s
    submitRounds first threads stem transform rounds (settle patience s)

def holder? (s : PoolScene) (source : String) : Option Nat :=
  s.held.reverse.find? fun w =>
    match s.pool.worker? w with
    | some ⟨.pushing ticket, _, _⟩ => ticket.job.source? == some source
    | _ => false

def registerScript (s : PoolScene) : Submission → Option Script → PoolScene
  | _, none => s
  | .transfer source _, some script | .transform source _ _, some script =>
    { s with scripts := (source, script) :: s.scripts }

/-- Plays one cue. While a call is blocked no other call that may block is made. -/
def play (s : PoolScene) (cue : Cue) : PoolScene × Reply :=
  let s := { s with endings := [], notices := [], begun := [] }
  match cue with
  | .submit submission script =>
    if s.isBlocked then (s, .busy)
    else
      let s := (s.registerScript submission script).ask background (.submit submission)
      (s, .ofEnding (s.ending? background))
  | .endTransaction =>
    if s.isBlocked then (s, .busy)
    else
      let scheduled := s.pool.lifecycle.acceptsJobs && s.pool.size.workers != 1 &&
        s.held.length < s.pool.size.workers
      let s := { s with blurred := s.blurred || scheduled }.ask background .endTransaction
      (s, .ofEnding (s.ending? background))
  | .hold => ({ s with gateClosed := true }, .ok)
  | .openGate =>
    let s := { s with gateClosed := false, held := [], blurred := s.blurred || s.isBlocked }
    (settle patience s, .ok)
  | .release source =>
    match s.holder? source with
    | none => (s, .notHeld)
    | some w => (settle patience { s with held := s.held.filter (· ≠ w) }, .ok)
  | .wait =>
    let s := { s with nextCaller := s.nextCaller + 1 }.ask s.nextCaller .waitForUpload
    (s, .ok)
  | .setCallback listener =>
    let s := s.ask direct (.setCallback listener)
    (s, .ofEnding (s.ending? direct))
  | .unsetCallback =>
    let s := s.ask direct .unsetCallback
    (s, .ofEnding (s.ending? direct))
  | .moveMode on =>
    let s := s.ask direct (.setMoveMode on)
    (s, .ofEnding (s.ending? direct))
  | .look => (s, .ok)
  | .parallel threads each stem transform =>
    if s.isBlocked then (s, .busy)
    else
      let first := s.nextCaller
      let s := { s with nextCaller := first + threads, blurred := true, unordered := true }
      (submitRounds first threads stem transform (List.range each) s, .ok)
  | .raceEnd threads =>
    if s.isBlocked then (s, .busy)
    else
      let first := s.nextCaller
      let s := { s with nextCaller := first + threads, blurred := true }
      let s := settle patience ((List.range threads).foldl (fun s t =>
        (s.move? (.begin (first + t) .endTransaction)).getD s) s)
      let lost := (List.range threads).filter fun t =>
        match s.ending? (first + t) with
        | some (.aborted _) => true
        | _ => false
      (s, .won (threads - lost.length))

/-- Whether a call that was blocked before a cue has returned in it, and how. -/
def backgroundDone (before after : PoolScene) : Option Ending :=
  if before.isBlocked then after.ending? background else none

/-- Opens the gate, lets all calls return and drops the pool. -/
def finish (s : PoolScene) : PoolScene :=
  let s := { s with endings := [], notices := [], begun := [], gateClosed := false, held := [] }
  (settle patience s).ask direct .drop

end PoolScene

end Spool.Rehearsal
