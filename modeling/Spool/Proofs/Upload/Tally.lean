import Spool.Proofs.Push.Codes
import Spool.Proofs.Upload.Course
import Spool.Upload.Schedule

/-!
The counts of the main thread and those of the pool. The main thread counts what it is told of by
callbacks, the pool what its workers did; both come to the same once everything that was submitted is
accounted for.
-/

namespace Spool

namespace UploadPhase

def listens : UploadPhase → Bool
  | .building | .switching | .registering => false
  | .dropping (.notStarted _) | .over (.notStarted _) => false
  | _ => true

/-- A job was handed to the pool that is not yet among those submitted. -/
def unsent : UploadPhase → Nat
  | .submitting _ => 1
  | _ => 0

def isCollected : UploadPhase → Bool
  | .waiting _ | .settling | .dropping (.finished _) | .over (.finished _) => true
  | _ => false

def verdict? : UploadPhase → Option Bool
  | .dropping (.finished success) | .over (.finished success) => some success
  | _ => none

theorem errand?_ne_clear (phase : UploadPhase) : phase.errand? ≠ some .clear := by
  cases phase <;> nofun

end UploadPhase

namespace Upload

open Pool

variable {σ : Type} {store : KeyStore σ} {start : World σ × Upload} {plan : Plan}
  {listed rest : List Listed} {names : List String} {events more : List (Event Unit)}
  {w w' : World σ} {u v : Upload} {q : Pool Unit} {pushes : List (Nat × Push)} {read : List Bool}

def taken (events : List (Event Unit)) (p : Pool Unit) : List Submission :=
  submissions events ++ (p.due? mainThread).toList

/-- The main thread has read what it was told first, and has counted that. -/
structure Tally (store : KeyStore σ) (read : List Bool) (events : List (Event Unit)) (u : Upload) :
    Prop where
  heeded : Heeded events
  coded : Coded events
  pushes : ∀ n push, u.push? n = some push → Push.Coded store push
  early : u.phase.listens = false → taken events u.pool = []
  listening : u.phase.listens = true → u.pool.callback ≠ none
  registered : u.phase = .registering → u.pool.call? mainThread = none → u.pool.callback ≠ none
  told : toldFailures events = read ++ u.desk.inbox
  completed : u.desk.completed = read.length
  failed : u.desk.failed = read.count true
  submitted : u.desk.submitted + u.phase.unsent = (taken events u.pool).length
  bounded : u.desk.completed ≤ u.desk.submitted
  uncut : u.phase ≠ .waiting true
  collected : u.phase.isCollected = true → u.desk.completed = u.desk.submitted
  verdict : ∀ success, u.phase.verdict? = some success → (success = true ↔ u.desk.failed = 0)

theorem tally_begin (plan : Plan) (listed : List Listed) :
    Tally store [] [] (begin plan listed) where
  heeded := fun _ _ _ member => by cases member
  coded := fun _ _ _ member => by cases member
  pushes := fun _ _ found => by cases found
  early := fun _ => rfl
  listening := fun impossible => by cases impossible
  registered := fun impossible => by cases impossible
  told := rfl
  completed := rfl
  failed := rfl
  submitted := rfl
  bounded := Nat.le_refl 0
  uncut := nofun
  collected := fun impossible => by cases impossible
  verdict := fun _ impossible => by cases impossible

namespace Tally

variable (tally : Tally store read events u)

include tally

/-- What was told and not read yet is no more than what was submitted and not completed. -/
theorem told_le (course : Course store start plan listed names rest events w u) :
    read.length + u.desk.inbox.length + u.pool.workerSum untoldFailure ≤
      u.desk.submitted + u.phase.unsent := by
  have told := course.history.told_le tally.heeded
  have length := congrArg List.length tally.told
  have submitted := tally.submitted
  rw [List.length_append] at length
  rw [taken, List.length_append] at submitted
  omega

/-- Once all is collected, nothing is left to be told, and the failures are those of the pool. -/
theorem settled (course : Course store start plan listed names rest events w u)
    (sent : u.phase.unsent = 0) (all : u.desk.completed = u.desk.submitted) :
    u.desk.inbox = [] ∧ u.desk.failed = u.pool.failed := by
  have told := tally.told_le course
  have completed := tally.completed
  have empty : u.desk.inbox = [] := List.length_eq_zero_iff.mp (by omega)
  have pool := course.history.failed_told tally.heeded tally.coded
  rw [tally.told, empty, List.append_nil, ← tally.failed] at pool
  exact ⟨empty, by omega⟩

theorem heeded_inner (course : Course store start plan listed names rest events w u)
    {thread : Thread} (inner : u.pool.Inner thread more q) : Heeded (events ++ more) := by
  intro n ticket found member work
  rcases List.mem_append.mp member with before | now
  · exact tally.heeded n ticket found before work
  · obtain ⟨rfl, there⟩ := inner.looked now
    intro none
    have deaf : u.phase.listens = false :=
      Bool.eq_false_iff.mpr fun listens => tally.listening listens none
    exact course.history.sound.submitted_of_held there rfl work
      (List.append_eq_nil_iff.mp (tally.early deaf)).1

theorem inner (course : Course store start plan listed names rest events w u) {thread : Thread}
    (inner : u.pool.Inner thread more q) (coded : Coded more)
    (becomes : Becomes u v q u.phase pushes)
    (left : ∀ n push, pushes.lookup n = some push → Push.Coded store push)
    (desk : v.desk = u.desk.receive (toldFailures more)) :
    Tally store read (events ++ more) v := by
  obtain ⟨_, _, pool, phase, same, _⟩ := becomes
  have kept : u.pool.callback ≠ none → q.callback ≠ none := by
    refine inner.callback_kept fun c inside there clears => ?_
    cases course.sole c inside there
    exact u.phase.errand?_ne_clear ((course.errand inside there).trans (congrArg some clears))
  have due : taken (events ++ more) q = taken events u.pool := by
    unfold taken
    rw [submissions_append, List.append_assoc, inner.due course.sole course.accepts]
  refine ⟨tally.heeded_inner course inner, ?_, ?_, ?_, ?_, ?_, ?_, ?_, ?_, ?_, ?_, ?_, ?_, ?_⟩
  · intro n ticket outcome member
    rcases List.mem_append.mp member with before | now
    · exact tally.coded n ticket outcome before
    · exact coded n ticket outcome now
  · simp only [push?, same]
    exact left
  · rw [phase, pool, due]
    exact tally.early
  · rw [phase, pool]
    exact fun listens => kept (tally.listening listens)
  · rw [phase, pool]
    intro registering gone
    cases there : u.pool.call? mainThread with
    | none => exact kept (tally.registered registering there)
    | some inside =>
      have errand := course.errand inside there
      rw [registering] at errand
      exact inner.registered course.sole there (Option.some.inj errand).symm gone
  · rw [toldFailures_append, tally.told, desk, List.append_assoc]
    rfl
  · rw [desk]
    exact tally.completed
  · rw [desk]
    exact tally.failed
  · rw [phase, pool, due, desk]
    exact tally.submitted
  · rw [desk]
    exact tally.bounded
  · rw [phase]
    exact tally.uncut
  · rw [phase, desk]
    exact tally.collected
  · rw [phase, desk]
    exact tally.verdict

theorem still (pool : v.pool = u.pool) (phase : v.phase = u.phase) (desk : v.desk = u.desk)
    (left : ∀ n push, v.push? n = some push → Push.Coded store push) :
    Tally store read events v := by
  refine ⟨tally.heeded, tally.coded, left, ?_, ?_, ?_, ?_, ?_, ?_, ?_, ?_, ?_, ?_, ?_⟩
  · exact phase ▸ pool ▸ tally.early
  · exact phase ▸ pool ▸ tally.listening
  · exact phase ▸ pool ▸ tally.registered
  · exact desk ▸ tally.told
  · exact desk ▸ tally.completed
  · exact desk ▸ tally.failed
  · exact phase ▸ pool ▸ desk ▸ tally.submitted
  · exact desk ▸ tally.bounded
  · exact phase ▸ tally.uncut
  · exact phase ▸ desk ▸ tally.collected
  · exact phase ▸ desk ▸ tally.verdict

theorem reads (course : Course store start plan listed names rest events w u) {failed : Bool}
    {left : List Bool} (reading : u.phase.reads = true) (next : u.inbox = failed :: left)
    (becomes : Becomes u v u.pool u.phase u.pushes) (desk : v.desk = u.desk.readOne failed left) :
    Tally store (read ++ [failed]) events v := by
  obtain ⟨_, _, pool, phase, same, _⟩ := becomes
  have sent : u.phase.unsent = 0 := by
    revert reading
    cases u.phase <;> simp [UploadPhase.reads, UploadPhase.unsent]
  have inbox : u.desk.inbox = failed :: left := next
  -- what is in the inbox was submitted and is not among the completed
  have more := tally.told_le course
  rw [inbox, sent, List.length_cons, ← tally.completed] at more
  refine ⟨tally.heeded, tally.coded, ?_, ?_, ?_, ?_, ?_, ?_, ?_, ?_, ?_, ?_, ?_, ?_⟩
  · simp only [push?, same]
    exact tally.pushes
  · exact phase ▸ pool ▸ tally.early
  · exact phase ▸ pool ▸ tally.listening
  · exact phase ▸ pool ▸ tally.registered
  · rw [tally.told, inbox, desk, List.append_assoc]
    rfl
  · rw [desk, List.length_append]
    exact congrArg (· + 1) tally.completed
  · rw [desk, List.count_append, ← tally.failed]
    cases failed <;> rfl
  · rw [desk]
    exact phase ▸ pool ▸ tally.submitted
  · rw [desk]
    show u.desk.completed + 1 ≤ u.desk.submitted
    omega
  · exact phase ▸ tally.uncut
  · rw [phase]
    intro done
    have all := tally.collected done
    omega
  · rw [phase]
    intro success known
    revert reading
    cases there : u.phase <;> simp_all [UploadPhase.reads, UploadPhase.verdict?]

theorem goOn {n : Nat} (becomes : Becomes u v u.pool v.phase u.pushes)
    (desk : v.desk = { u.desk with submitted := n })
    (sent : n + v.phase.unsent = u.desk.submitted + u.phase.unsent) (more : u.desk.submitted ≤ n)
    (early : v.phase.listens = false → u.phase.listens = false)
    (listens : v.phase.listens = true → u.pool.callback ≠ none)
    (other : v.phase ≠ .registering ∧ v.phase ≠ .waiting true)
    (collected : v.phase.isCollected = true → u.phase.isCollected = true ∧ n = u.desk.submitted)
    (verdict : ∀ success, v.phase.verdict? = some success → u.phase.verdict? = some success) :
    Tally store read events v := by
  obtain ⟨_, _, pool, _, same, _⟩ := becomes
  refine ⟨tally.heeded, tally.coded, ?_, ?_, ?_, fun there => absurd there other.1, ?_, ?_, ?_, ?_,
    ?_, other.2, ?_, ?_⟩
  · simp only [push?, same]
    exact tally.pushes
  · rw [pool]
    exact fun deaf => tally.early (early deaf)
  · rw [pool]
    exact listens
  · rw [desk]
    exact tally.told
  · rw [desk]
    exact tally.completed
  · rw [desk]
    exact tally.failed
  · rw [desk, pool]
    exact sent.trans tally.submitted
  · rw [desk]
    exact Nat.le_trans tally.bounded more
  · rw [desk]
    intro done
    obtain ⟨before, rfl⟩ := collected done
    exact tally.collected before
  · rw [desk]
    exact fun success known => tally.verdict success (verdict success known)

/-- The main thread goes on to a phase that promises no more than the one before it. -/
theorem passes {before later : UploadPhase} {n : Nat} (there : u.phase = before)
    (becomes : Becomes u v u.pool later u.pushes) (desk : v.desk = { u.desk with submitted := n })
    (sent : n + later.unsent = u.desk.submitted + before.unsent) (more : u.desk.submitted ≤ n)
    (early : later.listens = false → before.listens = false)
    (listens : later.listens = true → before.listens = true)
    (other : later ≠ .registering ∧ later ≠ .waiting true)
    (collected : later.isCollected = true → before.isCollected = true ∧ n = u.desk.submitted)
    (verdict : ∀ success, later.verdict? = some success → before.verdict? = some success) :
    Tally store read events v := by
  have phase := becomes.phase
  subst there
  refine tally.goOn (phase.symm ▸ becomes) desk ?_ more ?_ ?_ ?_ ?_ ?_ <;> rw [phase]
  · exact sent
  · exact early
  · exact fun hears => tally.listening (listens hears)
  · exact other
  · exact collected
  · exact verdict

theorem alone (course : Course store start plan listed names rest events w u) {later : UploadPhase}
    {desk : Desk} (goesOn : GoesOn u later desk) (free : u.pool.call? mainThread = none)
    (becomes : Becomes u v u.pool later u.pushes) (same : v.desk = desk) :
    ∃ read', Tally store read' events v := by
  cases goesOn with
  | read reading next => exact ⟨_, tally.reads course reading next becomes same⟩
  | registered there =>
    -- only here the callback is in place because the pool says so
    have phase := becomes.phase
    refine ⟨read, tally.goOn (phase.symm ▸ becomes) same ?_ (Nat.le_refl _) ?_ ?_ ?_ ?_ ?_⟩ <;>
      rw [phase]
    · rw [there]
      rfl
    · nofun
    · exact fun _ => tally.registered there free
    · exact ⟨nofun, nofun⟩
    · nofun
    · nofun
  | submitted there =>
    exact ⟨read, tally.passes there becomes same rfl (Nat.le_succ _) nofun (fun _ => rfl)
      ⟨nofun, nofun⟩ nofun nofun⟩
  | notStarted there =>
    exact ⟨read, tally.passes there becomes same rfl (Nat.le_refl _) (fun _ => rfl) nofun
      ⟨nofun, nofun⟩ nofun nofun⟩
  | drained there | closed there =>
    exact ⟨read, tally.passes there becomes same rfl (Nat.le_refl _) nofun (fun _ => rfl)
      ⟨nofun, nofun⟩ nofun nofun⟩
  | waited there =>
    exact ⟨read, tally.passes there becomes same rfl (Nat.le_refl _) nofun (fun _ => rfl)
      ⟨nofun, nofun⟩ (fun _ => ⟨rfl, rfl⟩) nofun⟩
  | @dropped result there =>
    refine ⟨read, tally.passes there becomes same rfl (Nat.le_refl _) (fun deaf => ?_)
      (fun hears => ?_) ⟨nofun, nofun⟩ (fun done => ?_) fun success known => ?_⟩
    · cases result <;> first | rfl | cases deaf
    · cases result <;> first | rfl | cases hears
    · cases result <;> first | exact ⟨rfl, rfl⟩ | cases done
    · cases result <;> exact known

/-- The main thread asks the pool for something; what depends on what it asks for is said. -/
theorem ask {call : Call Unit}
    {later : UploadPhase}
    (begun : u.pool.begin? mainThread call = some (q, [.called mainThread call]))
    (becomes : Becomes u v q later u.pushes) (desk : v.desk = u.desk)
    (early : later.listens = false → u.phase.listens = false ∧ call.phase.submission? = none)
    (listens : later.listens = true → u.phase.listens = true)
    (sent : later.unsent = u.phase.unsent + call.phase.submission?.toList.length)
    (uncut : later ≠ .waiting true)
    (collected : later.isCollected = true → u.desk.completed = u.desk.submitted)
    (verdict : ∀ success, later.verdict? = some success → (success = true ↔ u.desk.failed = 0)) :
    Tally store read (events ++ [.called mainThread call]) v := by
  obtain ⟨_, _, pool, phase, same, _⟩ := becomes
  have turn := turn_of_begin? begun
  have inside := call?_of_called turn
  have free := (frame_of_called turn).2.2.1
  have callback := callback_of_called turn
  have due : taken (events ++ [.called mainThread call]) q =
      taken events u.pool ++ call.phase.submission?.toList := by
    unfold taken due?
    rw [submissions_append, inside, free]
    exact (congrArg (· ++ _) (List.append_nil _)).trans
      (congrArg (· ++ _) (List.append_nil _).symm)
  refine ⟨?_, ?_, ?_, ?_, ?_, ?_, ?_, ?_, ?_, ?_, ?_, phase ▸ uncut, ?_, ?_⟩
  · intro n ticket found member
    rcases List.mem_append.mp member with before | now
    · exact tally.heeded n ticket found before
    · cases List.mem_singleton.mp now
  · intro n ticket outcome member
    rcases List.mem_append.mp member with before | now
    · exact tally.coded n ticket outcome before
    · cases List.mem_singleton.mp now
  · simp only [push?, same]
    exact tally.pushes
  · rw [phase, pool, due]
    intro deaf
    obtain ⟨before, none⟩ := early deaf
    rw [tally.early before, none]
    rfl
  · rw [phase, pool, callback]
    exact fun hears => tally.listening (listens hears)
  · rw [pool, inside]
    intro _ impossible
    cases impossible
  · rw [toldFailures_append, desk, ← tally.told]
    exact List.append_nil _
  · exact desk ▸ tally.completed
  · exact desk ▸ tally.failed
  · rw [phase, pool, due, desk, sent, List.length_append, ← tally.submitted]
    omega
  · exact desk ▸ tally.bounded
  · exact phase ▸ desk ▸ collected
  · exact phase ▸ desk ▸ verdict

theorem asked (course : Course store start plan listed names rest events w u) {call : Call Unit}
    {later : UploadPhase} (asks : Asks u call later)
    (begun : u.pool.begin? mainThread call = some (q, [.called mainThread call]))
    (becomes : Becomes u v q later u.pushes) (desk : v.desk = u.desk) :
    Tally store read (events ++ [.called mainThread call]) v := by
  cases asks with
  | setMoveMode there | setCallback there =>
    exact tally.ask begun becomes desk (fun _ => ⟨there ▸ rfl, rfl⟩) nofun (there ▸ rfl) nofun
      nofun nofun
  | submit there | giveUp there | endTransaction there =>
    exact tally.ask begun becomes desk nofun (fun _ => there ▸ rfl) (there ▸ rfl) nofun nofun
      nofun
  | waitForUpload there left =>
    have callback := tally.listening (there ▸ rfl)
    rcases left with ⟨rfl, all⟩ | ⟨_, none⟩
    · exact tally.ask begun becomes desk nofun (fun _ => there ▸ rfl) (there ▸ rfl) nofun
        (fun _ => Nat.le_antisymm tally.bounded all) nofun
    · exact absurd none callback
  | drop there =>
    have all := tally.collected (there ▸ rfl)
    have same := (tally.settled course (there ▸ rfl) all).2
    refine tally.ask begun becomes desk nofun (fun _ => there ▸ rfl) (there ▸ rfl) nofun
      (fun _ => all) fun success known => ?_
    cases known
    rw [same]
    exact beq_iff_eq

theorem turn (codes : store.Coded) (course : Course store start plan listed names rest events w u)
    (turn : Turn store w u more w' v) : ∃ read', Tally store read' (events ++ more) v := by
  cases turn with
  | inside calm becomes desk =>
    obtain ⟨_, inner⟩ := calm.inner
    exact ⟨read, tally.inner course inner
      (fun n ticket outcome member => absurd member (calm.pushed n ticket outcome)) becomes
      tally.pushes desk⟩
  | prepared _ started _ becomes desk =>
    have inner := inner_of_startReply? started
    exact ⟨read, tally.inner course inner (fun n ticket outcome member => absurd member inner.not_pushed)
      becomes tally.pushes desk⟩
  | asked asks begun becomes desk => exact ⟨read, tally.asked course asks begun becomes desk⟩
  | alone goesOn free becomes desk =>
    rw [List.append_nil]
    exact tally.alone course goesOn free becomes desk
  | @began n ticket =>
    rw [List.append_nil]
    refine ⟨read, tally.still rfl rfl rfl fun m push found => ?_⟩
    rw [push?_setPush] at found
    split at found
    · cases found
      exact Store.coded_push codes _ _
    · exact tally.pushes m push found
  | @pushing n ticket left _ there =>
    rw [List.append_nil]
    refine ⟨read, tally.still rfl rfl rfl fun m push found => ?_⟩
    rw [push?_setPush] at found
    split at found
    · cases found
      exact (tally.pushes n left there).step w
    · exact tally.pushes m push found
  | @pushed n ticket result _ _ there found handed becomes desk =>
    refine ⟨read, tally.inner course (inner_of_pushed? handed) (fun m other outcome member => ?_)
      becomes (fun m push inside => ?_) (desk.trans (Desk.receive_nil u.desk).symm)⟩
    · cases List.mem_singleton.mp member
      cases result with
      | ok hash => trivial
      | error e => exact (tally.pushes n _ found).code_ne_zero rfl
    · rw [show (u.endPush n).pushes.lookup m = (u.endPush n).push? m from rfl, push?_endPush] at inside
      split at inside
      · cases inside
      · exact tally.pushes m push inside
  | interrupted =>
    rw [List.append_nil]
    exact ⟨read, tally.still rfl rfl rfl tally.pushes⟩

end Tally

theorem Tally.leaves (tally : Tally store read events u) (there : u.phase = .collecting)
    (turn : Turn store w u more w' v) : v.phase = .collecting ∨
      u.desk.completed = u.desk.submitted ∧ v.phase = .waiting false := by
  cases turn with
  | inside _ becomes | prepared _ _ _ becomes | pushed _ _ _ becomes =>
    exact .inl (becomes.phase.trans there)
  | began | pushing | interrupted => exact .inl there
  | alone goesOn _ becomes =>
    cases goesOn with
    | read => exact .inl (becomes.phase.trans there)
    | _ known => cases there.symm.trans known
  | asked asks _ becomes =>
    cases asks with
    | waitForUpload _ left =>
      rcases left with ⟨rfl, all⟩ | ⟨_, none⟩
      · exact .inr ⟨Nat.le_antisymm tally.bounded all, becomes.phase⟩
      · exact absurd none (tally.listening (there ▸ rfl))
    | _ known => cases there.symm.trans known

/-- What the main thread counts agrees with what the pool counts. -/
structure Agreeing (store : KeyStore σ) (w : World σ) (u : Upload) : Prop where
  /-- Never more jobs have finished than were submitted, so those in flight are the others. -/
  inFlight : u.progress.completed ≤ u.progress.submitted ∧
    u.progress.inFlight + u.progress.completed = u.progress.submitted
  /-- Collecting ends only because every job is accounted for. -/
  leaving : u.phase = .collecting → ∀ move step, u.step? move = some step →
    (step.run store w).2.phase = .collecting ∨
      u.progress.completed = u.progress.submitted ∧ (step.run store w).2.phase = .waiting false
  uncut : u.phase ≠ .waiting true
  /-- From then on the main thread knows of every failure that the pool knows of. -/
  collected : u.phase.isCollected = true →
    u.progress.completed = u.progress.submitted ∧ u.progress.failed = u.pool.failed
  verdict : ∀ success, u.phase = .over (.finished success) →
    (success = true ↔ u.progress.failed = 0)

theorem Tally.toAgreeing (tally : Tally store read events u)
    (course : Course store start plan listed names rest events w u) : Agreeing store w u where
  inFlight := ⟨tally.bounded, Nat.sub_add_cancel tally.bounded⟩
  leaving := fun there _ _ made => by
    have leads : Leads store w u _ := leads_of_step? made
    obtain ⟨more, turn⟩ := leads
    exact tally.leaves there turn
  uncut := tally.uncut
  collected := fun done => by
    have all := tally.collected done
    have sent : u.phase.unsent = 0 := by
      revert done
      cases u.phase <;> simp [UploadPhase.isCollected, UploadPhase.unsent]
    exact ⟨all, (tally.settled course sent all).2⟩
  verdict := fun success there => tally.verdict success (there ▸ rfl)

/-- Whatever is uploaded and however the threads take turns, the counts of the main thread agree with
those of the pool, as long as no store refuses a value with the code that stands for success. -/
theorem Run.agreeing (codes : store.Coded)
    (run : Run store (w, begin plan listed) (w', u)) : Agreeing store w' u := by
  have known : ∃ events, (∃ names rest,
      Course store (w, begin plan listed) plan listed names rest events w' u) ∧
        ∃ read, Tally store read events u := by
    refine Run.induct (motive := fun events world v => (∃ names rest,
      Course store (w, begin plan listed) plan listed names rest events world v) ∧
        ∃ read, Tally store read events v) ?_ ?_ run
    · exact ⟨⟨[], listed, course_begin plan listed w⟩, [], tally_begin plan listed⟩
    · rintro events more w w' u v ⟨⟨names, rest, course⟩, read, tally⟩ reached turned goesOn
      obtain ⟨names', rest', _, further⟩ := course.turn reached turned goesOn
      exact ⟨⟨names', rest', further⟩, tally.turn codes course turned⟩
  obtain ⟨_, ⟨_, _, course⟩, _, tally⟩ := known
  exact tally.toAgreeing course

section Outage

def failing : Network Unit := fun state message =>
  (state, .ok (if message.url = "kv/a" then 200 else 503))

def putting : Plan where
  definition := ⟨.keyValue, "kv", "", "", 1, 2, Nat.one_pos, Nat.two_pos, Nat.le_add_left 2 510⟩
  files := ["a", "b"]
  process := false
  remoteDir := ""
  suffix := ""
  move := false
  showProgress := false
  verbose := false

def sent : World Unit × Upload :=
  (⟨{ entries := [(["a"], .file ⟨#[1]⟩ false), (["b"], .file ⟨#[2]⟩ false)] }, ()⟩,
    begin putting (["a", "b"].map .file))

def outage : World Unit × Upload :=
  (runFor 150 sent.2).run (Remote.keyStore failing "kv") sent.1

theorem agreeing_of_outage :
    (∀ state message status, (failing state message).2 = .ok status → status ≠ 0) ∧
    ∃ w u, Run (Remote.keyStore failing "kv") sent (w, u) ∧ u.phase = .over (.finished false) ∧
      u.progress.submitted = 2 ∧ u.progress.failed = 1 ∧
      Agreeing (Remote.keyStore failing "kv") w u := by
  have statuses : ∀ state message status, (failing state message).2 = .ok status →
      status ≠ 0 := by
    intro state message status answer
    unfold failing at answer
    dsimp only at answer
    split at answer <;> cases answer <;> decide
  have run : Run (Remote.keyStore failing "kv") sent outage := run_runFor _ _ _ .start
  have ends : outage.2.phase = .over (.finished false) ∧ outage.2.progress.submitted = 2 ∧
      outage.2.progress.failed = 1 := by decide +kernel
  generalize outage = last at run ends
  obtain ⟨w, u⟩ := last
  exact ⟨statuses, w, u, run, ends.1, ends.2.1, ends.2.2,
    Run.agreeing (Remote.coded_keyStore statuses) run⟩

end Outage

end Upload

end Spool
