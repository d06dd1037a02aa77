import Spool.Proofs.Pool.Barrier
import Spool.Proofs.Upload.Turns

/-!
The course of an upload: how far the main thread is down its list, and what the pool has counted by
then. Only when everything that was counted has been stored does an upload end in success.
-/

namespace Spool

def UploadPhase.errand? : UploadPhase → Option Errand
  | .building => some .build
  | .switching => some .switch
  | .registering => some .register
  | .submitting _ => some .submit
  | .closing => some .close
  | .waiting _ => some .wait
  | .dropping _ => some .drop
  | .listing _ | .draining _ | .collecting | .settling | .over _ => none

def UploadPhase.left? (listed : List Listed) : UploadPhase → Option (List Listed)
  | .building | .switching | .registering => some listed
  | .listing rest | .submitting rest | .draining rest => some rest
  | .closing | .collecting | .waiting _ | .settling | .dropping _ | .over _ => none

/-- No more files are taken, though nothing went wrong with the pool or the list. -/
def UploadPhase.isFinishing : UploadPhase → Bool
  | .closing | .collecting | .waiting _ | .settling => true
  | .dropping (.finished _) | .over (.finished _) => true
  | _ => false

def UploadPhase.isSuccess : UploadPhase → Bool
  | .dropping (.finished success) | .over (.finished success) => success
  | _ => false

def UploadPhase.isUnbuilt : UploadPhase → Bool
  | .building | .over (.notStarted _) => true
  | _ => false

namespace Pool

variable {κ : Type} {p : Pool κ} {events : List (Event κ)}

/-- A submission that was counted was stored, if nothing is pending and nothing failed. -/
theorem AllDone.stored (done : AllDone events p) (none : p.failed = 0) {submission : Submission}
    (member : submission ∈ submissions events) : ∃ w ticket hash,
      .pushed w ticket (.stored hash) ∈ events ∧ ticket.job.submission? = some submission := by
  obtain ⟨ticket, counted, known⟩ := List.mem_filterMap.mp member
  obtain ⟨event, heard, found⟩ := List.mem_filterMap.mp counted
  cases event with
  | counted c t =>
    cases found
    obtain ⟨w, deeds, record, closed⟩ := done.jobs c ticket heard
    cases closed with
    | stopped found stop =>
      rw [Job.isTermination_of_submission? known] at stop
      cases stop
    | handled outcome found answer asks =>
      have pushed : .pushed w ticket outcome ∈ events :=
        mem_of_about record (by simp [handling, execution])
      have handed : .handed w (ticket.finished outcome) ∈ events :=
        mem_of_about record (by simp [handling])
      have failures := done.failures
      rw [none, eq_comm, List.countP_eq_zero] at failures
      have successful := failures _ (mem_handedTickets handed)
      rw [Ticket.finished, Job.isSuccessful_finished asks.work] at successful
      cases outcome with
      | stored hash => exact ⟨w, ticket, hash, pushed, known⟩
      | failed error | gaveUp text => exact absurd rfl successful
  | _ => cases found

end Pool

namespace Upload

open Pool

variable {σ : Type} {store : KeyStore σ} {start : World σ × Upload} {plan : Plan}
  {listed rest : List Listed} {names : List String} {events more : List (Event Unit)}
  {w w' : World σ} {u v : Upload} {q : Pool Unit} {pushes : List (Nat × Push)}

/-- In the run up to now the file's turn came, and the world was like `then` when it was submitted. -/
def Submitted (store : KeyStore σ) (start now : World σ × Upload) (file : String)
    (world : World σ) : Prop :=
  ∃ before after rest, Run store start (world, before) ∧
    before.phase = .listing (.file file :: rest) ∧ Run store (world, before) (world, after) ∧
    after.phase = .submitting rest ∧ Run store (world, after) now

theorem Submitted.goOn {now later : World σ × Upload} {file : String} {world : World σ}
    (submitted : Submitted store start now file world)
    (goesOn : ∀ {origin}, Run store origin now → Run store origin later) :
    Submitted store start later file world := by
  obtain ⟨before, after, rest, first, next, step, phase, last⟩ := submitted
  exact ⟨before, after, rest, first, next, step, phase, goesOn last⟩

/-- How far an upload has come: it took `names` and `rest` is what it may still take. -/
structure Course (store : KeyStore σ) (start : World σ × Upload) (plan : Plan)
    (listed : List Listed) (names : List String) (rest : List Listed) (events : List (Event Unit))
    (w : World σ) (u : Upload) : Prop where
  planned : u.plan = plan
  lists : u.listed = listed
  history : Pool.Run (.new plan.definition.poolSize) events u.pool
  sole : u.pool.Sole mainThread
  errand : ∀ phase, u.pool.call? mainThread = some phase → u.phase.errand? = some phase.errand
  built : u.phase.isUnbuilt = false → u.pool.lifecycle ≠ .uninitialized
  unclosed : (u.phase.left? listed).isSome = true →
    ∀ c call, .called c call ∈ events → call.closes = false
  split : listed = names.map .file ++ rest
  left : ∀ more, u.phase.left? listed = some more → more = rest
  exhausted : u.phase.isFinishing = true → u.interrupted = true ∨ rest = []
  counted : submissions events ++ (u.pool.due? mainThread).toList = names.map plan.submission
  settled : u.phase.errand? = some .wait ∨ u.phase = .settling →
    u.pool.call? mainThread = none → u.pool.pending = 0
  stored : u.phase.isSuccess = true → ∀ name ∈ names, ∃ n ticket hash,
    .pushed n ticket (.stored hash) ∈ events ∧
      ticket.job.submission? = some (plan.submission name)
  submitted : ∀ name ∈ names, ∃ world, Submitted store start (w, u) name world

theorem course_begin (plan : Plan) (listed : List Listed) (w : World σ) :
    Course store (w, begin plan listed) plan listed [] listed [] w (begin plan listed) where
  planned := rfl
  lists := rfl
  history := .start
  sole := fun d phase there => by
    cases List.mem_singleton.mp (mem_of_call? there)
    rfl
  errand := fun phase there => by
    cases List.mem_singleton.mp (mem_of_call? there)
    rfl
  built := fun impossible => by cases impossible
  unclosed := fun _ _ _ member => by cases member
  split := rfl
  left := fun more same => (Option.some.inj same).symm
  exhausted := fun impossible => by cases impossible
  counted := rfl
  settled := fun impossible => by rcases impossible with impossible | impossible <;> cases impossible
  stored := fun impossible => by cases impossible
  submitted := fun _ member => by cases member

namespace Course

variable (course : Course store start plan listed names rest events w u)

include course

theorem accepts : u.pool.due? mainThread = none ∨ u.pool.lifecycle.acceptsJobs = true := by
  cases due : u.pool.due? mainThread with
  | none => exact .inl rfl
  | some submission =>
    obtain ⟨phase, there, known⟩ := Option.bind_eq_some_iff.mp due
    have errand := course.errand phase there
    rw [CallPhase.errand_of_submission? (course.history.sound.proper.calls _ _ there) known]
      at errand
    have submitting : ∃ more, u.phase = .submitting more := by
      revert errand
      cases u.phase <;> simp [UploadPhase.errand?]
    obtain ⟨more, phase⟩ := submitting
    exact .inr ((course.history.unclosed (course.unclosed (by rw [phase]; rfl))).accepts
      (course.built (by rw [phase]; rfl)))

theorem idle (free : u.pool.call? mainThread = none) (d : Nat) : u.pool.call? d = none := by
  cases there : u.pool.call? d with
  | none => rfl
  | some phase =>
    rw [course.sole d phase there, free] at there
    cases there

theorem submitted_of_run (goesOn : ∀ {origin}, Run store origin (w, u) → Run store origin (w', v)) :
    ∀ name ∈ names, ∃ world, Submitted store start (w', v) name world := fun name member =>
  (course.submitted name member).imp fun _ known => known.goOn goesOn

theorem inner {move : Pool.Move Unit} {thread : Thread}
    (made : u.pool.step? move = some (q, more)) (inner : u.pool.Inner thread more q)
    (becomes : Becomes u v q u.phase pushes)
    (goesOn : ∀ {origin}, Run store origin (w, u) → Run store origin (w', v)) :
    Course store start plan listed names rest (events ++ more) w' v := by
  obtain ⟨planned, lists, pool, phase, _, interrupted⟩ := becomes
  refine ⟨planned.trans course.planned, lists.trans course.lists, ?_, ?_, ?_, ?_, ?_, course.split,
    ?_, ?_, ?_, ?_, ?_, course.submitted_of_run goesOn⟩
  · exact pool ▸ course.history.next made
  · exact pool ▸ inner.sole course.sole
  · intro later there
    obtain ⟨old, known, same⟩ := inner.errand course.sole (pool ▸ there)
    rw [phase, same, course.errand old known]
  · intro unbuilt early
    exact course.built (phase ▸ unbuilt) (uninitialized_of_turn inner.turn (pool ▸ early)).1
  · intro taking c call member
    rcases List.mem_append.mp member with before | now
    · exact course.unclosed (phase ▸ taking) c call before
    · exact absurd now (inner.not_called c call)
  · exact phase ▸ course.left
  · rw [phase, interrupted]
    exact course.exhausted
  · rw [pool, submissions_append, List.append_assoc, inner.due course.sole course.accepts]
    exact course.counted
  · rw [phase, pool]
    intro waits ended
    cases there : u.pool.call? mainThread with
    | none =>
      exact Nat.eq_zero_of_le_zero
        (course.settled waits there ▸ inner.pending_le (course.idle there))
    | some old =>
      have errand := course.errand old there
      rcases waits with waiting | settling
      · rw [waiting] at errand
        exact inner.idle_of_waited course.sole there (Option.some.inj errand).symm ended
      · rw [settling] at errand
        cases errand
  · rw [phase]
    intro success name member
    obtain ⟨n, ticket, hash, pushed, known⟩ := course.stored success name member
    exact ⟨n, ticket, hash, List.mem_append_left _ pushed, known⟩

theorem alone {later : UploadPhase} {desk : Desk} (alone : GoesOn u later desk)
    (free : u.pool.call? mainThread = none) (becomes : Becomes u v u.pool later pushes)
    (goesOn : ∀ {origin}, Run store origin (w, u) → Run store origin (w', v)) :
    Course store start plan listed names rest events w' v := by
  obtain ⟨planned, lists, pool, phase, _, interrupted⟩ := becomes
  refine ⟨planned.trans course.planned, lists.trans course.lists, pool ▸ course.history,
    pool ▸ course.sole, ?_, ?_, ?_, course.split, ?_, ?_, pool ▸ course.counted, ?_, ?_,
    course.submitted_of_run goesOn⟩
  · intro inside there
    rw [pool, free] at there
    cases there
  · rw [phase, pool]
    intro unbuilt
    cases alone with
    | notStarted => cases unbuilt
    | read => exact course.built unbuilt
    | dropped there => exact course.built (there ▸ rfl)
    | registered there | submitted there | drained there | closed there | waited there =>
      exact course.built (there ▸ rfl)
  · rw [phase]
    intro taking
    cases alone with
    | registered there | submitted there | drained there => exact course.unclosed (there ▸ rfl)
    | read => exact course.unclosed taking
    | _ => cases taking
  · rw [phase]
    intro more known
    cases alone with
    | registered there =>
      cases known
      exact course.left _ (there ▸ congrArg some course.lists.symm)
    | submitted there | drained there =>
      cases known
      exact course.left _ (there ▸ rfl)
    | read => exact course.left more known
    | _ => cases known
  · rw [phase, interrupted]
    intro finishing
    cases alone with
    | closed there | waited there => exact course.exhausted (there ▸ rfl)
    | @dropped result there =>
      refine course.exhausted ?_
      rw [there]
      cases result <;> first | rfl | cases finishing
    | read => exact course.exhausted finishing
    | _ => cases finishing
  · rw [phase, pool]
    intro waits _
    cases alone with
    | waited there => exact course.settled (.inl (there ▸ rfl)) free
    | read => exact course.settled waits free
    | _ => rcases waits with impossible | impossible <;> cases impossible
  · rw [phase]
    intro success
    cases alone with
    | @dropped result there =>
      refine course.stored ?_
      rw [there]
      cases result <;> exact success
    | read => exact course.stored success
    | _ => cases success

theorem counted_of_free (free : u.pool.call? mainThread = none) :
    submissions events = names.map plan.submission := by
  have counted := course.counted
  rwa [due?, free, Option.bind_none, Option.toList_none, List.append_nil] at counted

theorem asked {call : Call Unit} {later : UploadPhase} {names' : List String}
    {rest' : List Listed} (asks : Asks u call later)
    (begun : u.pool.begin? mainThread call = some (q, [.called mainThread call]))
    (becomes : Becomes u v q later pushes) (split : listed = names'.map .file ++ rest')
    (left : ∀ more, later.left? listed = some more → more = rest')
    (exhausted : later.isFinishing = true → u.interrupted = true ∨ rest' = [])
    (counted : names.map plan.submission ++ call.phase.submission?.toList =
      names'.map plan.submission)
    (stored : later.isSuccess = true → ∀ name ∈ names', ∃ n ticket hash,
      .pushed n ticket (.stored hash) ∈ events ∧
        ticket.job.submission? = some (plan.submission name))
    (submitted : ∀ name ∈ names', ∃ world, Submitted store start (w', v) name world) :
    Course store start plan listed names' rest' (events ++ [.called mainThread call]) w' v := by
  obtain ⟨planned, lists, pool, phase, _, interrupted⟩ := becomes
  have turn := turn_of_begin? begun
  obtain ⟨_, lifecycle, free, only⟩ := frame_of_called turn
  have inside := call?_of_called turn
  refine ⟨planned.trans course.planned, lists.trans course.lists, ?_, ?_, ?_, ?_, ?_, split,
    phase ▸ left, ?_, ?_, ?_, ?_, submitted⟩
  · have made : u.pool.step? (.begin mainThread call) = some (q, _) := begun
    exact pool ▸ course.history.next made
  · rw [pool]
    intro d other found
    exact (only d other found).elim id (course.sole d other)
  · rw [pool, phase]
    intro other found
    cases inside.symm.trans found
    rw [Call.errand_phase]
    cases asks <;> rfl
  · rw [pool, lifecycle]
    exact fun _ => begun_of_called turn
  · rw [phase]
    intro taking c other member
    have before : (u.phase.left? listed).isSome = true ∧ call.closes = false := by
      cases asks with
      | setMoveMode there | setCallback there | submit there =>
        exact ⟨there ▸ rfl, rfl⟩
      | _ => cases taking
    rcases List.mem_append.mp member with known | now
    · exact course.unclosed before.1 c other known
    · cases List.mem_singleton.mp now
      exact before.2
  · rw [phase, interrupted]
    exact exhausted
  · rw [pool, submissions_append, due?, inside, course.counted_of_free free]
    exact (List.append_assoc _ _ _).trans counted
  · rw [pool, inside]
    intro _ impossible
    cases impossible
  · rw [phase]
    intro success name member
    obtain ⟨n, ticket, hash, pushed, known⟩ := stored success name member
    exact ⟨n, ticket, hash, List.mem_append_left _ pushed, known⟩

/-- Every turn takes an upload further down its list, or leaves it where it is. -/
theorem turn (reached : Run store start (w, u)) (turn : Turn store w u more w' v)
    (goesOn : ∀ {origin}, Run store origin (w, u) → Run store origin (w', v)) :
    ∃ names' rest', names <+: names' ∧
      Course store start plan listed names' rest' (events ++ more) w' v := by
  have same : names <+: names := List.prefix_rfl
  cases turn with
  | inside calm becomes =>
    obtain ⟨_, made⟩ := calm.move
    obtain ⟨_, inner⟩ := calm.inner
    exact ⟨names, rest, same, course.inner made inner becomes goesOn⟩
  | prepared _ started _ becomes =>
    have made : u.pool.step? (.start mainThread _) = some (_, more) := started
    exact ⟨names, rest, same, course.inner made (inner_of_startReply? started) becomes goesOn⟩
  | pushed _ _ handed becomes =>
    have made : u.pool.step? (.pushed _ _) = some (_, _) := handed
    exact ⟨names, rest, same, course.inner made (inner_of_pushed? handed) becomes goesOn⟩
  | alone alone free becomes =>
    exact ⟨names, rest, same, (List.append_nil events).symm ▸ course.alone alone free becomes goesOn⟩
  | began | pushing =>
    refine ⟨names, rest, same, (List.append_nil events).symm ▸ ?_⟩
    exact { course with submitted := course.submitted_of_run goesOn }
  | interrupted =>
    refine ⟨names, rest, same, (List.append_nil events).symm ▸ ?_⟩
    exact { course with
      exhausted := fun _ => .inl rfl
      submitted := course.submitted_of_run goesOn }
  | @asked call later pool _ asks begun becomes =>
    have free := (frame_of_called (turn_of_begin? begun)).2.2.1
    have submitted := course.submitted_of_run goesOn
    have counted := (List.append_nil (names.map plan.submission))
    cases asks with
    | setMoveMode there fault =>
      exact ⟨names, rest, same, course.asked (.setMoveMode there fault) begun becomes course.split
        (fun more known => course.left more (there ▸ known)) nofun counted nofun submitted⟩
    | setCallback there =>
      exact ⟨names, rest, same, course.asked (.setCallback there) begun becomes course.split
        (fun more known => course.left more (there ▸ known)) nofun counted nofun submitted⟩
    | @submit name left there calm =>
      -- only here a file is taken
      have next : .file name :: left = rest := course.left _ (there ▸ rfl)
      refine ⟨names ++ [name], left, List.prefix_append _ _,
        course.asked (.submit there calm) begun becomes ?_ ?_ nofun ?_ nofun ?_⟩
      · rw [course.split, ← next]
        simp
      · exact fun more known => (Option.some.inj known).symm
      · rw [List.map_append, course.planned]
        rfl
      · intro other member
        rcases List.mem_append.mp member with before | now
        · exact submitted other before
        · cases List.mem_singleton.mp now
          exact ⟨w, u, v, left, reached, there, goesOn .start, becomes.phase, .start⟩
    | giveUp there =>
      exact ⟨names, rest, same, course.asked (.giveUp there) begun becomes course.split nofun nofun counted
        nofun submitted⟩
    | endTransaction there last =>
      refine ⟨names, rest, same, course.asked (.endTransaction there last) begun becomes course.split
        nofun (fun _ => last.imp_right fun none => ?_) counted nofun submitted⟩
      exact (course.left _ (there ▸ congrArg some none)).symm
    | waitForUpload there left =>
      exact ⟨names, rest, same, course.asked (.waitForUpload there left) begun becomes course.split nofun
        (fun _ => course.exhausted (there ▸ rfl)) counted nofun submitted⟩
    | drop there =>
      refine ⟨names, rest, same, course.asked (.drop there) begun becomes course.split nofun
        (fun _ => course.exhausted (there ▸ rfl)) counted (fun success name member => ?_) submitted⟩
      have done := course.history.allDone (course.settled (.inr there) free)
      refine done.stored (beq_iff_eq.mp success) ?_
      rw [course.counted_of_free free]
      exact List.mem_map_of_mem member

end Course

end Upload

end Spool
