import Spool.Proofs.Upload.Cargo
import Spool.Proofs.Upload.Course

/-!
Where the files of an upload are while it goes on. A file lies where it was until its own push moves
it, and stays where it was stored once its push has succeeded: the calls of other pushes, and the
making of directories, do not touch it.
-/

namespace Spool

namespace Upload

open Pool

variable {σ : Type} {store : KeyStore σ} {start : World σ × Upload} {plan : Plan} {d disk : Disk}
  {files names : List String} {file : String} {rest : List Listed} {top : Loc}
  {events more : List (Event Unit)} {w w' : World σ} {u v : Upload}

structure Untouched (plan : Plan) (events : List (Event Unit)) (u : Upload) (file : String) :
    Prop where
  idle : ∀ n ticket, u.pool.phase? n = some (.pushing ticket) →
    ticket.job.submission? = some (plan.submission file) → u.push? n = none
  fresh : ∀ n ticket outcome, .pushed n ticket outcome ∈ events →
    ticket.job.submission? ≠ some (plan.submission file)

/-- Workers are started only when the base is there, and until then the disk is as it was. -/
structure Readied (plan : Plan) (d disk : Disk) (u : Upload) : Prop where
  made : u.pool.workers ≠ [] → (d.makeDirs plan.base).2 = .ok ()
  fresh : ∀ next, u.pool.call? mainThread = some (.starting next) → u.pool.workers = [] → disk = d

structure Delivery (plan : Plan) (d : Disk) (files : List String) (top : Loc)
    (events : List (Event Unit)) (disk : Disk) (u : Upload) : Prop where
  steady : u.pool.workers ≠ [] → (d.makeDirs plan.base).1.Steady disk
  pushing : ∀ n left, u.push? n = some left → ∃ ticket file move,
    u.pool.phase? n = some (.pushing ticket) ∧ file ∈ files ∧
      ticket.job = (plan.submission file).job move ∧
      (plan.freight d file).Standing plan.base top move disk left
  waits : ∀ file ∈ files, Untouched plan events u file → (plan.freight d file).Waits disk
  stored : ∀ file ∈ files, ∀ n ticket hash, .pushed n ticket (.stored hash) ∈ events →
    ticket.job.submission? = some (plan.submission file) →
      (plan.freight d file).Stored plan.base top disk

theorem run_prepare (store : KeyStore σ) (driver : plan.definition.driver = .directory)
    (w : World σ) :
    ((Store.prepare plan.definition).run store w).1.disk = (w.disk.makeDirs plan.base).1 ∧
      (((Store.prepare plan.definition).run store w).2.isOk = true →
        (w.disk.makeDirs plan.base).2 = .ok ()) := by
  simp only [Store.prepare, Store.ofDefinition, driver, Program.run, Disk.act, Plan.base]
  cases w.disk.makeDirs plan.definition.description with
  | mk e reply =>
    cases reply with
    | ok => exact ⟨rfl, fun _ => rfl⟩
    | error cause => exact ⟨rfl, fun impossible => by cases impossible⟩

theorem Readied.turn (driver : plan.definition.driver = .directory) (planned : u.plan = plan)
    (readied : Readied plan d w.disk u) (turn : Turn store w u more w' v) :
    Readied plan d w'.disk v := by
  cases turn with
  | inside calm becomes =>
    obtain ⟨thread, inner⟩ := calm.inner
    have workers := inner.workers calm.started
    refine ⟨fun some => ?_, fun next there none => ?_⟩
    · exact readied.made fun none => some (becomes.pool ▸ workers.mpr none)
    · rw [becomes.pool] at there none
      exact readied.fresh next (inner.starting calm.started there) (workers.mp none)
  | @prepared next reply events q v there started fine becomes =>
    obtain ⟨prepared, ok⟩ := run_prepare store driver w
    rw [planned] at fine ⊢
    cases reply with
    | ok =>
      refine ⟨fun _ => ?_, fun _ _ none => absurd (becomes.pool ▸ none) (startReply?_ok started)⟩
      by_cases none : u.pool.workers = []
      · rw [← readied.fresh next there none]
        exact ok (fine rfl)
      · exact readied.made none
    | error error =>
      obtain ⟨same, ended⟩ := startReply?_error started
      refine ⟨fun some => readied.made (same ▸ becomes.pool ▸ some), fun next impossible => ?_⟩
      exact absurd (becomes.pool ▸ impossible) (ended next)
  | asked asks begun becomes =>
    obtain ⟨same, _⟩ := frame_of_called (turn_of_begin? begun)
    have there := call?_of_called (turn_of_begin? begun)
    refine ⟨fun some => readied.made (same ▸ becomes.pool ▸ some), fun next found => ?_⟩
    rw [becomes.pool, there] at found
    cases asks <;> cases found
  | alone _ _ becomes =>
    exact ⟨fun some => readied.made (becomes.pool ▸ some), fun next there none =>
      readied.fresh next (becomes.pool ▸ there) (becomes.pool ▸ none)⟩
  | began | interrupted => exact ⟨readied.made, readied.fresh⟩
  | pushing there => exact ⟨readied.made, fun _ _ none => absurd none (workers_of_phase? there)⟩
  | pushed there _ handed becomes =>
    have workers := (inner_of_pushed? handed).workers (by simp)
    have some := workers_of_phase? there
    exact ⟨fun _ => readied.made some, fun _ _ none =>
      absurd (workers.mp (becomes.pool ▸ none)) some⟩

theorem based_of_ships (ships : plan.Ships d files)
    (leads : (d.makeDirs plan.base).1.LeadsTo plan.base top)
    (steady : (d.makeDirs plan.base).1.Steady disk) :
    disk.Formed ∧ disk.Based (Route.ofText plan.base.toList) top := by
  have made := (Disk.makeDirs_spares ships.formed plan.base fun _ => False).steady
  have formed := made.formed ships.formed
  exact ⟨steady.formed formed,
    steady.based (formed.based (made.linkless (ships.linkless top leads)) leads)⟩

namespace Delivery

section Carry

variable (delivery : Delivery plan d files top events disk u)

include delivery

/-- What leaves the files and their places alone leaves the delivery where it is. -/
theorem spared {e : Disk} {touched : Loc → Prop} (spares : disk.Spares e touched)
    (origins : ∀ file ∈ files, ¬ touched (plan.freight d file).origin)
    (goals : ∀ file ∈ files, ¬ touched ((plan.freight d file).goal top)) :
    Delivery plan d files top events e u := by
  refine ⟨fun some => (delivery.steady some).trans spares.steady, fun n left there => ?_,
    fun file member free => (delivery.waits file member free).spared spares (origins file member),
    fun file member n ticket hash heard known =>
      (delivery.stored file member n ticket hash heard known).spared spares (goals file member)⟩
  obtain ⟨ticket, file, move, phase, member, job, standing⟩ := delivery.pushing n left there
  exact ⟨ticket, file, move, phase, member, job,
    standing.spared spares (origins file member) (goals file member)⟩

theorem carry (pushing : ∀ n ticket, u.pool.phase? n = some (.pushing ticket) →
      v.pool.phase? n = some (.pushing ticket))
    (pushes : v.pushes = u.pushes) (silent : ∀ n ticket outcome, .pushed n ticket outcome ∉ more)
    (steady : v.pool.workers ≠ [] → (d.makeDirs plan.base).1.Steady disk) :
    Delivery plan d files top (events ++ more) disk v := by
  have same : ∀ n, v.push? n = u.push? n := fun n => by simp only [push?, pushes]
  refine ⟨steady, fun n left there => ?_, fun file member free => ?_, ?_⟩
  · obtain ⟨ticket, file, move, phase, rest⟩ := delivery.pushing n left (same n ▸ there)
    exact ⟨ticket, file, move, pushing n ticket phase, rest⟩
  · refine delivery.waits file member ⟨fun n ticket phase known => ?_, fun n ticket outcome heard => ?_⟩
    · exact same n ▸ free.idle n ticket (pushing n ticket phase) known
    · exact free.fresh n ticket outcome (List.mem_append_left _ heard)
  · intro file member n ticket hash heard known
    rcases List.mem_append.mp heard with before | now
    · exact delivery.stored file member n ticket hash before known
    · exact absurd now (silent _ _ _)

end Carry

end Delivery

section Tickets

variable (ships : plan.Ships d files)
  (course : Course store start plan (files.map .file) names rest events w u)

include course in
theorem taken_prefix : ∃ left, files = names ++ left ∧ rest = left.map .file := by
  obtain ⟨first, left, split, taken, same⟩ := List.map_eq_append_iff.mp course.split
  have inj : ∀ a b, Listed.file a = Listed.file b → a = b := fun _ _ known => by
    cases known
    rfl
  exact ⟨left, (List.map_inj_right inj).mp taken ▸ split, same.symm⟩

include course in
theorem mem_names_of_counted (copies : plan.process = false)
    (member : plan.submission file ∈ submissions events) : file ∈ names := by
  have counted : plan.submission file ∈ names.map plan.submission := by
    rw [← course.counted]
    exact List.mem_append_left _ member
  obtain ⟨name, taken, same⟩ := List.mem_map.mp counted
  exact Plan.submission_inj copies same ▸ taken

include ships course in
theorem submissions_nodup : (submissions events).Nodup := by
  obtain ⟨left, split, _⟩ := taken_prefix course
  have nodup := split ▸ ships.nodup
  have all : (names.map plan.submission).Nodup :=
    List.pairwise_map.mpr ((List.nodup_append.mp nodup).1.imp fun apart same =>
      apart (Plan.submission_inj ships.copies same))
  rw [← course.counted] at all
  exact (List.nodup_append.mp all).1

include course in
theorem file_of_pushing {n : Nat} {ticket : Ticket}
    (there : u.pool.phase? n = some (.pushing ticket)) :
    ∃ file ∈ files, ∃ move, ticket.job = (plan.submission file).job move := by
  obtain ⟨submission, move, member, job⟩ := course.history.sound.submission_of_pushing there
  obtain ⟨left, split, _⟩ := taken_prefix course
  have counted : submission ∈ names.map plan.submission := by
    rw [← course.counted]
    exact List.mem_append_left _ member
  obtain ⟨file, taken, rfl⟩ := List.mem_map.mp counted
  exact ⟨file, split ▸ List.mem_append_left _ taken, move, job⟩

end Tickets

namespace Delivery

section Turn

variable (ships : plan.Ships d files) (leads : (d.makeDirs plan.base).1.LeadsTo plan.base top)
  (course : Course store start plan (files.map .file) names rest events w u)
  (delivery : Delivery plan d files top events w.disk u)

include ships delivery

include course in
theorem began {n : Nat} {ticket : Ticket} (there : u.pool.phase? n = some (.pushing ticket))
    (none : u.push? n = .none) : Delivery plan d files top events w.disk
      (u.setPush n ((Store.ofDefinition plan.definition).push ticket.job)) := by
  have sound := course.history.sound
  have once := submissions_nodup ships course
  obtain ⟨file, member, move, job⟩ := file_of_pushing course there
  have known := job ▸ (plan.submission file).submission?_job move
  refine ⟨delivery.steady, fun m left found => ?_, fun other member free => ?_, delivery.stored⟩
  · rw [push?_setPush] at found
    split at found
    · next same =>
      cases found
      refine ⟨ticket, file, move, same ▸ there, member, job, ?_⟩
      rw [job, ships.push_eq file move]
      refine .begun (delivery.waits file member ⟨fun m other phase same => ?_, ?_⟩)
      · exact sound.pushing_unique once there phase known same ▸ none
      · exact fun m other outcome heard same =>
          sound.not_pushed_of_pushing once there known same heard
    · exact delivery.pushing m left found
  · refine delivery.waits other member ⟨fun m found phase known => ?_, free.fresh⟩
    have idle := free.idle m found phase known
    rw [push?_setPush] at idle
    split at idle
    · cases idle
    · exact idle

include leads course in
theorem pushed_on {n : Nat} {left : Push} (there : u.push? n = some left) :
    Delivery plan d files top events (left.step store w).1.disk
      (u.setPush n (left.step store w).2) := by
  have sound := course.history.sound
  have once := submissions_nodup ships course
  obtain ⟨ticket, file, move, phase, member, job, standing⟩ := delivery.pushing n left there
  have known := job ▸ (plan.submission file).submission?_job move
  obtain ⟨formed, based⟩ :=
    based_of_ships ships leads (delivery.steady (workers_of_phase? phase))
  obtain ⟨goesOn, spares⟩ := standing.step store (ships.fits leads member) formed based
  -- any other push is of another file, which this call leaves alone
  have apart : ∀ other ∈ files, other ≠ file →
      ¬ (plan.freight d file).Own top (plan.freight d other).origin ∧
        ¬ (plan.freight d file).Own top ((plan.freight d other).goal top) :=
    fun other inside different => ships.own_apart leads member inside (Ne.symm different)
  refine ⟨fun some => (delivery.steady some).trans spares.steady, fun m later found => ?_,
    fun other inside free => ?_, fun other inside m t hash heard same => ?_⟩
  · rw [push?_setPush] at found
    split at found
    · next same =>
      cases found
      exact ⟨ticket, file, move, same ▸ phase, member, job, goesOn⟩
    · next others =>
      obtain ⟨t, other, moves, at_, inside, its, stands⟩ := delivery.pushing m later found
      have different : other ≠ file := fun same =>
        others (sound.pushing_unique once at_ phase
          (its ▸ (plan.submission other).submission?_job moves) (same ▸ known))
      obtain ⟨origin, goal⟩ := apart other inside different
      exact ⟨t, other, moves, at_, inside, its, stands.spared spares origin goal⟩
  · have different : other ≠ file := by
      rintro rfl
      have idle := free.idle n ticket phase known
      rw [push?_setPush, if_pos rfl] at idle
      cases idle
    refine (delivery.waits other inside ⟨fun m t at_ same => ?_, free.fresh⟩).spared spares
      (apart other inside different).1
    have idle := free.idle m t at_ same
    rw [push?_setPush] at idle
    split at idle
    · cases idle
    · exact idle
  · have different : other ≠ file := by
      rintro rfl
      exact sound.not_pushed_of_pushing once phase known same heard
    exact (delivery.stored other inside m t hash heard same).spared spares
      (apart other inside different).2

theorem pushed_off {n : Nat} {ticket : Ticket} {result : Except PushError String} {q : Pool Unit}
    (phase : u.pool.phase? n = some (.pushing ticket)) (there : u.push? n = some (.done result))
    (handed : u.pool.pushed? n (.ofResult result) =
      some (q, [.pushed n ticket (.ofResult result)]))
    (becomes : Becomes u v q u.phase (u.endPush n).pushes) :
    Delivery plan d files top (events ++ [.pushed n ticket (.ofResult result)]) w.disk v := by
  have inner := inner_of_pushed? handed
  have pushes : ∀ m, v.push? m = if m = n then none else u.push? m := fun m => by
    rw [← push?_endPush, push?, push?, becomes.pushes]
  have others : ∀ m t, m ≠ n → u.pool.phase? m = some (.pushing t) →
      v.pool.phase? m = some (.pushing t) := fun m t apart at_ =>
    becomes.pool ▸ inner.pushing at_ fun outcome heard => by
      cases List.mem_singleton.mp heard
      exact apart rfl
  refine ⟨fun some => ?_, fun m left found => ?_, fun file member free => ?_,
    fun file member m t hash heard same => ?_⟩
  · exact delivery.steady (workers_of_phase? phase)
  · rw [pushes] at found
    split at found
    · cases found
    · next apart =>
      obtain ⟨t, file, move, at_, rest⟩ := delivery.pushing m left found
      exact ⟨t, file, move, others m t apart at_, rest⟩
  · refine delivery.waits file member ⟨fun m t at_ same => ?_, fun m t outcome heard =>
      free.fresh m t outcome (List.mem_append_left _ heard)⟩
    have apart : m ≠ n := by
      rintro rfl
      rw [phase] at at_
      cases at_
      exact free.fresh _ _ _ (List.mem_append_right _ (List.mem_singleton_self _)) same
    have idle := free.idle m t (others m t apart at_) same
    rwa [pushes, if_neg apart] at idle
  · rcases List.mem_append.mp heard with before | now
    · exact delivery.stored file member m t hash before same
    · cases result with
      | error e => cases List.mem_singleton.mp now
      | ok hash =>
        cases List.mem_singleton.mp now
        obtain ⟨t, other, move, at_, _, job, standing⟩ := delivery.pushing n _ there
        rw [phase] at at_
        cases at_
        rw [job, Submission.submission?_job] at same
        cases Plan.submission_inj ships.copies (Option.some.inj same)
        exact standing.of_done

include leads course in
theorem turn (readied : Readied plan d w.disk u) (turn : Turn store w u more w' v) :
    Delivery plan d files top (events ++ more) w'.disk v := by
  cases turn with
  | inside calm becomes =>
    obtain ⟨thread, inner⟩ := calm.inner
    refine delivery.carry (fun n ticket there => ?_) becomes.pushes calm.pushed fun some => ?_
    · exact becomes.pool ▸ inner.pushing there fun outcome => calm.pushed n ticket outcome
    · exact delivery.steady fun none => some (becomes.pool ▸ (inner.workers calm.started).mpr none)
  | prepared there started fine becomes =>
    obtain ⟨prepared, _⟩ := run_prepare store ships.driver w
    have formed : w.disk.Formed := by
      by_cases none : u.pool.workers = []
      · exact readied.fresh _ there none ▸ ships.formed
      · exact (based_of_ships ships leads (delivery.steady none)).1
    have spares := Disk.makeDirs_spares formed plan.base fun _ => False
    have inner := inner_of_startReply? started
    rw [course.planned, prepared]
    refine (delivery.spared spares (fun _ _ => id) fun _ _ => id).carry (fun n ticket there => ?_)
      becomes.pushes (fun _ _ _ => inner.not_pushed) fun _ => ?_
    · exact becomes.pool ▸ inner.pushing there fun _ => inner.not_pushed
    · by_cases none : u.pool.workers = []
      · rw [readied.fresh _ there none]
        exact .refl _
      · exact (delivery.steady none).trans spares.steady
  | asked asks begun becomes =>
    obtain ⟨same, _⟩ := frame_of_called (turn_of_begin? begun)
    refine delivery.carry (fun n ticket there => ?_) becomes.pushes (by simp) fun some => ?_
    · rw [becomes.pool]
      simpa only [phase?, worker?, same] using there
    · exact delivery.steady (same ▸ becomes.pool ▸ some)
  | alone _ _ becomes =>
    exact delivery.carry (fun n ticket there => becomes.pool ▸ there) becomes.pushes (by simp)
      fun some => delivery.steady (becomes.pool ▸ some)
  | interrupted => exact delivery.carry (fun _ _ there => there) rfl (by simp) delivery.steady
  | began there none =>
    rw [List.append_nil, course.planned]
    exact began ships course delivery there none
  | pushing _ there =>
    rw [List.append_nil]
    exact pushed_on ships leads course delivery there
  | pushed phase there handed becomes =>
    exact pushed_off ships delivery phase there handed becomes

end Turn

end Delivery

theorem delivery_begin (ships : plan.Ships d files) (listed : List Listed) :
    Delivery plan d files top [] d (begin plan listed) where
  steady := fun some => absurd rfl some
  pushing := fun _ _ impossible => by cases impossible
  waits := fun _ member _ => ships.waits member
  stored := fun _ _ _ _ _ impossible => by cases impossible

end Upload

end Spool
