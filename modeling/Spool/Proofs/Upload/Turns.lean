import Spool.Proofs.Pool.Pushes
import Spool.Proofs.Pool.Tellings
import Spool.Upload.Machine

/-!
What one step does to an upload. The main thread goes on by itself or asks the pool for something; a
thread inside the pool goes on; a worker goes on with its push. The steps are opened here once.
-/

namespace Spool

def UploadPhase.reads : UploadPhase → Bool
  | .draining _ | .collecting | .settling => true
  | _ => false

namespace Upload

open Pool

variable {σ : Type} {u v : Upload} {events : List (Event Unit)}

/-- What lies before the main thread: the notices that it has not read, and its counts. -/
structure Desk where
  inbox : List Bool
  submitted : Nat
  completed : Nat
  failed : Nat

namespace Desk

def receive (desk : Desk) (notices : List Bool) : Desk :=
  { desk with inbox := desk.inbox ++ notices }

def submitOne (desk : Desk) : Desk :=
  { desk with submitted := desk.submitted + 1 }

def readOne (desk : Desk) (failed : Bool) (left : List Bool) : Desk :=
  { desk with
    inbox := left
    completed := desk.completed + 1
    failed := if failed then desk.failed + 1 else desk.failed }

theorem receive_nil (desk : Desk) : desk.receive [] = desk := by
  simp only [receive, List.append_nil]

theorem receive_append (desk : Desk) (first second : List Bool) :
    desk.receive (first ++ second) = (desk.receive first).receive second := by
  simp only [receive, List.append_assoc]

end Desk

def desk (u : Upload) : Desk :=
  ⟨u.inbox, u.progress.submitted, u.progress.completed, u.progress.failed⟩

/-- Pool, phase and pushes are as they are given; what the main thread noted may be new. -/
structure Becomes (u v : Upload) (pool : Pool Unit) (phase : UploadPhase)
    (pushes : List (Nat × Push)) : Prop where
  plan : v.plan = u.plan
  listed : v.listed = u.listed
  pool : v.pool = pool
  phase : v.phase = phase
  pushes : v.pushes = pushes
  interrupted : v.interrupted = u.interrupted

theorem becomes_hear (u : Upload) (event : Event Unit) :
    Becomes u (u.hear event) u.pool u.phase u.pushes := by
  unfold hear
  split <;> exact ⟨rfl, rfl, rfl, rfl, rfl, rfl⟩

theorem becomes_follow (u : Upload) (change : Pool.Change Unit) :
    Becomes u (u.follow change) change.1 u.phase u.pushes := by
  obtain ⟨pool, events⟩ := change
  unfold follow
  suffices all : ∀ v, Becomes u v pool u.phase u.pushes →
      Becomes u (events.foldl hear v) pool u.phase u.pushes from
    all _ ⟨rfl, rfl, rfl, rfl, rfl, rfl⟩
  induction events with
  | nil => exact fun _ known => known
  | cons event events ih =>
    intro v known
    have heard := becomes_hear v event
    exact ih _ ⟨heard.plan.trans known.plan, heard.listed.trans known.listed,
      heard.pool.trans known.pool, heard.phase.trans known.phase, heard.pushes.trans known.pushes,
      heard.interrupted.trans known.interrupted⟩

theorem desk_hear (u : Upload) (event : Event Unit) :
    (u.hear event).desk = u.desk.receive event.failure?.toList := by
  cases event with
  | notified => rfl
  | ended c ending => cases ending <;> exact (Desk.receive_nil u.desk).symm
  | _ => exact (Desk.receive_nil u.desk).symm

theorem desk_follow (u : Upload) (change : Pool.Change Unit) :
    (u.follow change).desk = u.desk.receive (toldFailures change.2) := by
  obtain ⟨pool, events⟩ := change
  unfold follow
  suffices all : ∀ v : Upload, (events.foldl hear v).desk = v.desk.receive (toldFailures events) from
    all { u with pool }
  induction events with
  | nil => exact fun v => (Desk.receive_nil v.desk).symm
  | cons event events ih =>
    intro v
    rw [List.foldl_cons, ih, desk_hear, toldFailures_cons, Desk.receive_append]

/-- What the main thread asks of the pool, and where it is then. -/
inductive Asks (u : Upload) : Call Unit → UploadPhase → Prop
  | setMoveMode : u.phase = .building → u.fault = none →
      Asks u (.setMoveMode u.plan.move) .switching
  | setCallback : u.phase = .switching → Asks u (.setCallback ()) .registering
  | submit {name : String} {rest : List Listed} : u.phase = .listing (.file name :: rest) →
      u.interrupted = false → Asks u (.submit (u.plan.submission name)) (.submitting rest)
  | giveUp {rest : List Listed} : u.phase = .listing (.unreadable :: rest) →
      Asks u .drop (.dropping .unreadable)
  | endTransaction {rest : List Listed} : u.phase = .listing rest →
      u.interrupted = true ∨ rest = [] → Asks u .endTransaction .closing
  | waitForUpload {cut : Bool} : u.phase = .collecting →
      (cut = false ∧ u.progress.submitted ≤ u.progress.completed ∨
        cut = true ∧ u.pool.callback = none) → Asks u .waitForUpload (.waiting cut)
  | drop : u.phase = .settling → Asks u .drop (.dropping (.finished (u.pool.failed == 0)))

/-- Where the main thread gets to by itself, and what lies before it then. -/
inductive GoesOn (u : Upload) : UploadPhase → Desk → Prop
  | notStarted {error : WorkerError} : u.phase = .building → u.fault = some error →
      GoesOn u (.over (.notStarted error)) u.desk
  | registered : u.phase = .registering → GoesOn u (.listing u.listed) u.desk
  | submitted {rest : List Listed} : u.phase = .submitting rest →
      GoesOn u (.draining rest) u.desk.submitOne
  | drained {rest : List Listed} : u.phase = .draining rest → GoesOn u (.listing rest) u.desk
  | closed : u.phase = .closing → GoesOn u .collecting u.desk
  | read {failed : Bool} {left : List Bool} : u.phase.reads = true → u.inbox = failed :: left →
      GoesOn u u.phase (u.desk.readOne failed left)
  | waited {cut : Bool} : u.phase = .waiting cut → GoesOn u .settling u.desk
  | dropped {result : UploadEnd} : u.phase = .dropping result → GoesOn u (.over result) u.desk

inductive Turn (store : KeyStore σ) (w : World σ) (u : Upload) :
    List (Event Unit) → World σ → Upload → Prop
  | inside {events : List (Event Unit)} {pool : Pool Unit} {v : Upload} : u.pool.Calm events pool →
      Becomes u v pool u.phase u.pushes → v.desk = u.desk.receive (toldFailures events) →
      Turn store w u events w v
  /-- The store of the next worker is prepared, and the worker started if that worked. -/
  | prepared {next : Nat} {reply : Except WorkerError Unit} {events : List (Event Unit)}
      {pool : Pool Unit} {v : Upload} : u.pool.call? mainThread = some (.starting next) →
      u.pool.startReply? mainThread reply = some (pool, events) →
      (reply = .ok () → ((Store.prepare u.plan.definition).run store w).2.isOk = true) →
      Becomes u v pool u.phase u.pushes → v.desk = u.desk.receive (toldFailures events) →
      Turn store w u events ((Store.prepare u.plan.definition).run store w).1 v
  | asked {call : Call Unit} {phase : UploadPhase} {pool : Pool Unit} {v : Upload} :
      Asks u call phase → u.pool.begin? mainThread call = some (pool, [.called mainThread call]) →
      Becomes u v pool phase u.pushes → v.desk = u.desk →
      Turn store w u [.called mainThread call] w v
  | alone {phase : UploadPhase} {desk : Desk} {v : Upload} : GoesOn u phase desk →
      u.pool.call? mainThread = none → Becomes u v u.pool phase u.pushes → v.desk = desk →
      Turn store w u [] w v
  | began {n : Nat} {ticket : Ticket} : u.pool.phase? n = some (.pushing ticket) →
      u.push? n = none →
      Turn store w u [] w (u.setPush n ((Store.ofDefinition u.plan.definition).push ticket.job))
  | pushing {n : Nat} {ticket : Ticket} {left : Push} :
      u.pool.phase? n = some (.pushing ticket) → u.push? n = some left →
      Turn store w u [] (left.step store w).1 (u.setPush n (left.step store w).2)
  | pushed {n : Nat} {ticket : Ticket} {result : Except PushError String} {pool : Pool Unit}
      {v : Upload} : u.pool.phase? n = some (.pushing ticket) → u.push? n = some (.done result) →
      u.pool.pushed? n (.ofResult result) = some (pool, [.pushed n ticket (.ofResult result)]) →
      Becomes u v pool u.phase (u.endPush n).pushes → v.desk = u.desk →
      Turn store w u [.pushed n ticket (.ofResult result)] w v
  | interrupted : Turn store w u [] w { u with interrupted := true }

theorem push?_setPush (u : Upload) (n m : Nat) (push : Push) :
    (u.setPush n push).push? m = if m = n then some push else u.push? m := by
  simp only [push?, setPush, List.lookup_cons, Table.lookup_filter_ne]
  by_cases same : m = n
  · simp [same]
  · simp [same, beq_eq_false_iff_ne.mpr same]

theorem push?_endPush (u : Upload) (n m : Nat) :
    (u.endPush n).push? m = if m = n then none else u.push? m :=
  Table.lookup_filter_ne u.pushes n m

section Steps

variable (store : KeyStore σ) (w : World σ)

def Leads (u : Upload) (step : Program Upload) : Prop :=
  ∃ events, Turn store w u events (step.run store w).1 (step.run store w).2

variable {store w}

theorem leads_inside {change : Pool.Change Unit} (calm : u.pool.Calm change.2 change.1) :
    Leads store w u (.done (u.follow change)) :=
  ⟨change.2, .inside calm (becomes_follow u change) (desk_follow u change)⟩

theorem leads_alone {phase : UploadPhase} {desk : Desk} (goesOn : GoesOn u phase desk)
    (idle : u.pool.call? mainThread = none) (becomes : Becomes u v u.pool phase u.pushes)
    (same : v.desk = desk) : Leads store w u (.done v) :=
  ⟨[], .alone goesOn idle becomes same⟩

theorem turn_of_ask? {call : Call Unit} {phase : UploadPhase} {asked : Upload}
    (asks : Asks u call phase) (made : u.ask? call phase = some asked)
    (same : Becomes asked v asked.pool asked.phase asked.pushes) (unread : v.desk = asked.desk) :
    Turn store w u [.called mainThread call] w v := by
  unfold ask? at made
  obtain ⟨⟨pool, events⟩, begun, rfl⟩ := Option.map_eq_some_iff.mp made
  cases heard_of_begin? begun
  have after := becomes_follow { u with phase } (pool, [.called mainThread call])
  refine .asked asks begun ⟨same.plan.trans after.plan, same.listed.trans after.listed,
    same.pool.trans after.pool, same.phase.trans after.phase, same.pushes.trans after.pushes,
    same.interrupted.trans after.interrupted⟩ ?_
  exact unread.trans ((desk_follow { u with phase } _).trans (Desk.receive_nil u.desk))

theorem becomes_self (u : Upload) : Becomes u u u.pool u.phase u.pushes :=
  ⟨rfl, rfl, rfl, rfl, rfl, rfl⟩

theorem leads_asked {call : Call Unit} {phase : UploadPhase} {step : Program Upload}
    (asks : Asks u call phase) (made : (u.ask? call phase).map .done = some step) :
    Leads store w u step := by
  obtain ⟨asked, known, rfl⟩ := Option.map_eq_some_iff.mp made
  exact ⟨_, turn_of_ask? asks known (becomes_self asked) rfl⟩

theorem leads_of_takeNext? {rest : List Listed} {step : Program Upload}
    (there : u.phase = .listing rest) (made : u.takeNext? rest = some step) :
    Leads store w u step := by
  unfold takeNext? at made
  split at made
  · next none =>
    refine leads_asked (.endTransaction there ?_) made
    split at none
    · next interrupted => exact .inl interrupted
    · exact .inr none
  · next some =>
    split at some
    · cases some
    · rw [some] at there
      exact leads_asked (.giveUp there) made
  · next name later some =>
    split at some
    · cases some
    · next calm =>
      rw [some] at there
      obtain ⟨asked, known, rfl⟩ := Option.map_eq_some_iff.mp made
      exact ⟨_, turn_of_ask? (.submit there (Bool.eq_false_iff.mpr calm)) known
        ⟨rfl, rfl, rfl, rfl, rfl, rfl⟩ rfl⟩

theorem leads_of_mainStep? {step : Program Upload} (idle : u.pool.call? mainThread = none)
    (made : u.mainStep? = some step) : Leads store w u step := by
  have read : ∀ failed left, u.phase.reads = true → u.inbox = failed :: left →
      Leads store w u (.done (u.readNotice failed left)) := fun failed left reads first =>
    leads_alone (.read reads first) idle ⟨rfl, rfl, rfl, rfl, rfl, rfl⟩ rfl
  unfold mainStep? at made
  split at made
  · next there =>
    split at made
    · next fault =>
      cases made
      exact leads_alone (.notStarted there fault) idle ⟨rfl, rfl, rfl, rfl, rfl, rfl⟩ rfl
    · next fault => exact leads_asked (.setMoveMode there fault) made
  · next there => exact leads_asked (.setCallback there) made
  · next there =>
    cases made
    exact leads_alone (.registered there) idle ⟨rfl, rfl, rfl, rfl, rfl, rfl⟩ rfl
  · next there => exact leads_of_takeNext? there made
  · next there =>
    cases made
    exact leads_alone (.submitted there) idle ⟨rfl, rfl, rfl, rfl, rfl, rfl⟩ rfl
  · next there =>
    split at made
    · next first =>
      cases made
      exact read _ _ (there ▸ rfl) first
    · cases made
      exact leads_alone (.drained there) idle ⟨rfl, rfl, rfl, rfl, rfl, rfl⟩ rfl
  · next there =>
    cases made
    exact leads_alone (.closed there) idle ⟨rfl, rfl, rfl, rfl, rfl, rfl⟩ rfl
  · next there =>
    split at made
    · split at made
      · next first =>
        cases made
        exact read _ _ (there ▸ rfl) first
      · split at made
        · cases made
        · next gone =>
          refine leads_asked (.waitForUpload there (.inr ⟨rfl, ?_⟩)) made
          simpa using gone
    · next all => exact leads_asked (.waitForUpload there (.inl ⟨rfl, Nat.le_of_not_lt all⟩)) made
  · next there =>
    cases made
    exact leads_alone (.waited there) idle ⟨rfl, rfl, rfl, rfl, rfl, rfl⟩ rfl
  · next there =>
    split at made
    · next first =>
      cases made
      exact read _ _ (there ▸ rfl) first
    · exact leads_asked (.drop there) made
  · next there =>
    cases made
    exact leads_alone (.dropped there) idle ⟨rfl, rfl, rfl, rfl, rfl, rfl⟩ rfl
  · cases made

theorem leads_of_callerStep? {woken : Option Thread} {step : Program Upload}
    (building : ∀ next, u.pool.call? mainThread = some (.starting next) →
      ¬ next < u.pool.size.workers)
    (made : ((u.pool.callerStep? mainThread woken).map fun change => .done (u.follow change)) =
      some step) : Leads store w u step := by
  obtain ⟨change, known, rfl⟩ := Option.map_eq_some_iff.mp made
  exact leads_inside (calm_of_callerStep? building known)

theorem leads_of_callStep? {woken : Option Thread} {step : Program Upload}
    (made : u.callStep? woken = some step) : Leads store w u step := by
  unfold callStep? at made
  split at made
  · next next there =>
    split at made
    · next more =>
      cases made
      have started : ∀ reply, (reply = .ok () →
          ((Store.prepare u.plan.definition).run store w).2.isOk = true) →
          ∃ events, Turn store w u events ((Store.prepare u.plan.definition).run store w).1
            (((u.pool.startReply? mainThread reply).map u.follow).getD u) := by
        intro reply fine
        obtain ⟨change, known⟩ := startReply?_isSome there more reply
        rw [known]
        exact ⟨change.2, .prepared there known fine (becomes_follow u change) (desk_follow u change)⟩
      unfold Leads
      rw [Program.run_bind]
      cases prepared : ((Store.prepare u.plan.definition).run store w).2 with
      | ok => exact started _ fun _ => by rw [prepared]; rfl
      | error e => exact started _ fun impossible => by cases impossible
    · next all =>
      refine leads_of_callerStep? (fun other found => ?_) made
      rw [there] at found
      cases found
      exact all
  · next phase other there =>
    refine leads_of_callerStep? (fun next found => ?_) made
    rw [there] at found
    exact absurd (Option.some.inj found) (other next)
  · cases made

theorem leads_of_pushStep? {n : Nat} {worker : Worker} {ticket : Ticket} {step : Program Upload}
    (there : u.pool.worker? n = some worker) (phase : worker.phase = .pushing ticket)
    (made : u.pushStep? n ticket.job = some step) : Leads store w u step := by
  have known : u.pool.phase? n = some (.pushing ticket) := phase ▸ phase?_of_worker? there
  unfold pushStep? at made
  split at made
  · next none =>
    cases made
    exact ⟨[], .began known none⟩
  · next left found =>
    split at made
    · next result ended =>
      obtain ⟨⟨pool, events⟩, handed, rfl⟩ := Option.map_eq_some_iff.mp made
      have heard : events = [.pushed n ticket (.ofResult result)] := by
        simp only [pushed?, there, phase] at handed
        cases handed
        rfl
      cases heard
      have done : left = .done result := by
        cases left <;> cases ended
        rfl
      have after := becomes_follow (u.endPush n) (pool, [.pushed n ticket (.ofResult result)])
      have same := desk_follow (u.endPush n) (pool, [.pushed n ticket (.ofResult result)])
      exact ⟨_, .pushed known (done ▸ found) handed
        ⟨after.plan, after.listed, after.pool, after.phase, after.pushes, after.interrupted⟩
        (same.trans (Desk.receive_nil u.desk))⟩
    · cases made
      unfold Leads
      rw [Program.run_bind, Program.run_first]
      exact ⟨[], .pushing known found⟩

theorem leads_of_workerStep? {n : Nat} {step : Program Upload} (made : u.workerStep? n = some step) :
    Leads store w u step := by
  unfold workerStep? at made
  split at made
  · cases made
  · next worker there =>
    have known := phase?_of_worker? there
    split at made
    · next ticket phase => exact leads_of_pushStep? there phase made
    · next ticket phase =>
      obtain ⟨change, moved, rfl⟩ := Option.map_eq_some_iff.mp made
      have made : u.pool.step? (.notified n .returned) = some change := moved
      refine leads_inside ((inner_of_notified? moved).calm made fun other found => ?_)
      rw [known, phase] at found
      cases found
    · next other _ =>
      obtain ⟨change, moved, rfl⟩ := Option.map_eq_some_iff.mp made
      have made : u.pool.step? (.worker n) = some change := moved
      refine leads_inside ((inner_of_workerStep? moved).calm made fun ticket found => ?_)
      rw [known] at found
      exact other ticket (Option.some.inj found)

theorem leads_of_step? {move : Move} {step : Program Upload} (made : u.step? move = some step) :
    Leads store w u step := by
  cases move with
  | main woken =>
    simp only [step?] at made
    split at made
    · exact leads_of_callStep? made
    · next idle =>
      split at made
      · cases made
      · exact leads_of_mainStep? (by simpa using idle) made
  | worker n => exact leads_of_workerStep? made
  | rouse thread =>
    obtain ⟨change, roused, rfl⟩ := Option.map_eq_some_iff.mp made
    exact leads_inside (calm_of_rouse? roused)
  | interrupt =>
    simp only [step?] at made
    split at made <;> cases made
    exact ⟨[], .interrupted⟩

end Steps

/-- What holds in the beginning and after every turn holds of every run, with some events that the
pool has heard by then. A turn is also where runs from other states go on. -/
theorem Run.induct {store : KeyStore σ} {start : World σ × Upload}
    {motive : List (Event Unit) → World σ → Upload → Prop} (first : motive [] start.1 start.2)
    (turn : ∀ {events more : List (Event Unit)} {w w' : World σ} {u u' : Upload},
      motive events w u → Run store start (w, u) → Turn store w u more w' u' →
      (∀ {origin : World σ × Upload}, Run store origin (w, u) → Run store origin (w', u')) →
      motive (events ++ more) w' u')
    {state : World σ × Upload} (run : Run store start state) :
    ∃ events, motive events state.1 state.2 := by
  induction run with
  | start => exact ⟨[], first⟩
  | next reached made ih =>
    obtain ⟨events, known⟩ := ih
    obtain ⟨more, turned⟩ := leads_of_step? made
    exact ⟨events ++ more, turn known reached turned fun begun => begun.next made⟩

end Upload

end Spool
