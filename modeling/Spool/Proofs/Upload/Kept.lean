import Spool.Proofs.Upload.Delivery
import Spool.Push.Memory
import Spool.Upload.Schedule

/-!
What an upload that ends in success has done. Files that do not get in each other's way are in the
store, each with what it held when it was submitted. Of two files that are to go to one place, only one
is there in the end, and the upload is a success all the same.
-/

namespace Spool

namespace Upload

open Pool

variable {σ : Type} {store : KeyStore σ} {start : World σ × Upload} {plan : Plan}
  {files names : List String} {file : String} {top : Loc} {events : List (Event Unit)}
  {w w' : World σ} {u u' : Upload}

theorem Run.trans {mid last : World σ × Upload} (first : Run store start mid)
    (second : Run store mid last) : Run store start last := by
  induction second with
  | start => exact first
  | next _ made ih => exact ih.next made

/-- What is known of a state that an upload of these files got into when it had taken `names`. -/
structure Known (store : KeyStore σ) (start : World σ × Upload) (plan : Plan)
    (files names : List String) (events : List (Event Unit)) (w : World σ) (u : Upload) : Prop where
  course : ∃ rest, Course store start plan (files.map .file) names rest events w u
  readied : Readied plan start.1.disk w.disk u
  delivery : ∀ top, (start.1.disk.makeDirs plan.base).1.LeadsTo plan.base top →
    Delivery plan start.1.disk files top events w.disk u

section Runs

variable {w₀ : World σ} (ships : plan.Ships w₀.disk files)

include ships

theorem known_begin : Known store (w₀, begin plan (files.map .file)) plan files [] [] w₀
    (begin plan (files.map .file)) :=
  ⟨⟨_, course_begin plan _ w₀⟩, ⟨fun some => absurd rfl some, fun _ _ _ => rfl⟩,
    fun _ _ => delivery_begin ships _⟩

theorem Known.after {u₀ : Upload} (known : Known store (w₀, u₀) plan files names events w u)
    (reached : Run store (w₀, u₀) (w, u)) (run : Run store (w, u) (w', u')) :
    ∃ names' events', names <+: names' ∧ Known store (w₀, u₀) plan files names' events' w' u' := by
  -- the run goes along, since where a file was submitted is told by the states before
  suffices all : ∃ heard, Run store (w₀, u₀) (w', u') ∧ ∃ names', names <+: names' ∧
      Known store (w₀, u₀) plan files names' (events ++ heard) w' u' by
    obtain ⟨heard, _, names', more, known⟩ := all
    exact ⟨names', events ++ heard, more, known⟩
  refine run.induct (motive := fun heard w' u' => Run store (w₀, u₀) (w', u') ∧
    ∃ names', names <+: names' ∧ Known store (w₀, u₀) plan files names' (events ++ heard) w' u')
    ⟨reached, names, List.prefix_rfl, (List.append_nil events).symm ▸ known⟩ ?_
  intro heard more w₁ w₂ u₁ u₂ before _ turn goesOn
  obtain ⟨reached, names', taken, known⟩ := before
  obtain ⟨rest, course⟩ := known.course
  obtain ⟨names'', rest', grown, course'⟩ := course.turn reached turn goesOn
  refine ⟨goesOn reached, names'', taken.trans grown, ?_⟩
  rw [← List.append_assoc]
  exact ⟨⟨rest', course'⟩, known.readied.turn ships.driver course.planned turn,
    fun top leads => (known.delivery top leads).turn ships leads course known.readied turn⟩

theorem Run.known (run : Run store (w₀, begin plan (files.map .file)) (w, u)) :
    ∃ names events, Known store (w₀, begin plan (files.map .file)) plan files names events w u := by
  obtain ⟨names, events, _, known⟩ := (known_begin ships).after ships .start run
  exact ⟨names, events, known⟩

/-- A file whose turn has come was not taken before, and holds what it held in the beginning. -/
theorem read_of_listing (leads : (w₀.disk.makeDirs plan.base).1.LeadsTo plan.base top)
    (run : Run store (w₀, begin plan (files.map .file)) (w, u)) {later : List Listed}
    (next : u.phase = .listing (.file file :: later)) :
    w.disk.read file = .ok (plan.freight w₀.disk file).bytes := by
  obtain ⟨names, events, known⟩ := run.known ships
  obtain ⟨rest, course⟩ := known.course
  obtain ⟨left, split, same⟩ := taken_prefix course
  have first : .file file :: later = left.map .file := same ▸ course.left _ (by rw [next]; rfl)
  obtain ⟨more, rfl⟩ : ∃ more, left = file :: more := by
    cases left with
    | nil => cases first
    | cons name more =>
      cases first
      exact ⟨more, rfl⟩
  have fresh : file ∉ names := by
    have nodup := split ▸ ships.nodup
    exact fun taken => (List.nodup_append.mp nodup).2.2 _ taken _ List.mem_cons_self rfl
  have member : file ∈ files := split ▸ List.mem_append_right _ List.mem_cons_self
  have uncounted : ∀ ticket ∈ countedTickets events,
      ticket.job.submission? ≠ some (plan.submission file) := fun ticket counted same =>
    fresh (mem_names_of_counted course ships.copies (List.mem_filterMap.mpr ⟨ticket, counted, same⟩))
  refine ((known.delivery top leads).waits file member ⟨?_, ?_⟩).read
  · intro n ticket phase same
    obtain ⟨c, kind, _, record⟩ := course.history.sound.record_of_pushing phase
    exact absurd same (uncounted ticket (counted_of_record record))
  · intro n ticket outcome heard
    obtain ⟨c, deeds, record, _⟩ := course.history.sound.record_of_pushed heard
    exact uncounted ticket (counted_of_record record)

theorem taken_of_submitted {world : World σ}
    (submitted : Submitted store (w₀, begin plan (files.map .file)) (w, u) file world) :
    ∃ names events, file ∈ names ∧
      Known store (w₀, begin plan (files.map .file)) plan files names events w u := by
  obtain ⟨before, after, later, reached, next, step, phase, last⟩ := submitted
  obtain ⟨names, events, known⟩ := reached.known ships
  obtain ⟨rest, course⟩ := known.course
  obtain ⟨names', events', known'⟩ := (reached.trans step).known ships
  obtain ⟨rest', course'⟩ := known'.course
  -- both lists of names end where the list of files goes on
  have here : files.map .file = names.map .file ++ .file file :: later := by
    rw [course.left (.file file :: later) (by rw [next]; rfl)]
    exact course.split
  have there : files.map .file = names'.map .file ++ later := by
    rw [course'.left later (by rw [phase]; rfl)]
    exact course'.split
  have same : names.map Listed.file ++ [.file file] = names'.map .file :=
    List.append_cancel_right (((List.append_assoc _ _ _).trans here.symm).trans there)
  obtain ⟨name, taken, own⟩ := List.mem_map.mp
    (same ▸ List.mem_append_right _ (List.mem_singleton_self (Listed.file file)))
  cases own
  obtain ⟨names'', events'', more, known''⟩ := known'.after ships (reached.trans step) last
  exact ⟨names'', events'', more.subset taken, known''⟩

/-- When an upload ends in success, the store holds every file that was submitted, at the file's place
and with what it held then; and unless the upload was interrupted, every file was submitted. -/
theorem Run.keeps_files (run : Run store (w₀, begin plan (files.map .file)) (w, u))
    (success : u.phase = .over (.finished true)) (member : file ∈ files) :
    (u.interrupted = false →
      ∃ world, Submitted store (w₀, begin plan (files.map .file)) (w, u) file world) ∧
    ∀ world, Submitted store (w₀, begin plan (files.map .file)) (w, u) file world →
      ∃ bytes, world.disk.read file = .ok bytes ∧ w.disk.read (plan.dest file) = .ok bytes := by
  refine ⟨fun calm => ?_, fun world submitted => ?_⟩
  · obtain ⟨names, events, known⟩ := run.known ships
    obtain ⟨rest, course⟩ := known.course
    obtain ⟨left, split, same⟩ := taken_prefix course
    refine course.submitted file ?_
    rcases course.exhausted (success ▸ rfl) with interrupted | none
    · rw [calm] at interrupted
      cases interrupted
    · rw [none, eq_comm, List.map_eq_nil_iff] at same
      rwa [split, same, List.append_nil] at member
  · obtain ⟨names, events, taken, known⟩ := taken_of_submitted ships submitted
    obtain ⟨rest, course⟩ := known.course
    -- workers were started, so the base was made
    have running := course.history.sound.staged.running (course.built (success ▸ rfl))
    have workers : u.pool.workers ≠ [] := fun none => by
      have count := running.workers
      rw [none] at count
      exact Nat.ne_of_lt u.pool.size.workers_pos count
    have made : w₀.disk.makeDirs plan.base = ((w₀.disk.makeDirs plan.base).1, .ok ()) :=
      Prod.ext rfl (known.readied.made workers)
    obtain ⟨top, leads⟩ := Disk.leadsTo_of_makeDirs ships.formed made
    obtain ⟨n, ticket, hash, pushed, its⟩ := course.stored (success ▸ rfl) file taken
    obtain ⟨before, after, rest, reached, next, _⟩ := submitted
    exact ⟨_, read_of_listing ships leads reached next,
      ((known.delivery top leads).stored file member n ticket hash pushed its).read⟩

end Runs

section Rooms

def rooms : Disk where
  entries := [(["a"], .dir), (["b"], .dir), (["x", "a"], .file ⟨#[1]⟩ false),
    (["x", "b"], .file ⟨#[2]⟩ false), (["y", "b"], .file ⟨#[3]⟩ false)]

def crossed : Disk where
  entries := (["s"], .dir) :: (["y", "s"], .link "x") :: rooms.entries

def copying (f g : String) : Plan where
  definition := ⟨.directory, "s", "", "", 1, 1, Nat.one_pos, Nat.one_pos, Nat.le_add_left 1 511⟩
  files := [f, g]
  process := false
  remoteDir := ""
  suffix := ""
  move := false
  showProgress := false
  verbose := false

def copied (d : Disk) (f g : String) : World Memory × Upload :=
  (⟨d, []⟩, begin (copying f g) ([f, g].map .file))

def after (steps : Nat) (state : World Memory × Upload) : World Memory × Upload :=
  (runFor steps state.2).run (Memory.keyStore fun _ => none) state.1

theorem run_after (steps : Nat) (state : World Memory × Upload) :
    Run (Memory.keyStore fun _ => none) state (after steps state) :=
  run_runFor _ _ _ .start

theorem source_of_eq {d : Disk} {path n : String} {dir : Loc} {bytes : ByteArray}
    (found : d.locate .existing path = .ok (n :: dir, some (.file bytes false)))
    (place : d.place path = .ok ⟨dir, some n, false⟩)
    (there : d.explore .existing 0 dir false [.name n] = .ok (n :: dir, some (.file bytes false))) :
    d.Source path (n :: dir) (n :: dir) :=
  ⟨⟨_, _, found⟩, ⟨n, dir, place, rfl⟩, n, dir, 0, bytes, false, rfl, there⟩

theorem formed_rooms : rooms.Formed := by
  refine Disk.formed_of_entries rfl fun pair member => ?_
  simp only [rooms, List.mem_cons, List.not_mem_nil, or_false] at member
  rcases member with rfl | rfl | rfl | rfl | rfl <;> rfl

theorem formed_crossed : crossed.Formed := by
  refine Disk.formed_of_entries rfl fun pair member => ?_
  simp only [crossed, rooms, List.mem_cons, List.not_mem_nil, or_false] at member
  rcases member with rfl | rfl | rfl | rfl | rfl | rfl | rfl <;> rfl

theorem sends_copying {d : Disk} {f g m n : String} {i j : Loc} (formed : d.Formed)
    (first : d.Source f (m :: i) (m :: i)) (second : d.Source g (n :: j) (n :: j))
    (named : Path.fileName? f ≠ none ∧ Path.fileName? g ≠ none) (apart : m :: i ≠ n :: j)
    (base : (d.makeDirs "s").1.LeadsTo "s" ["s"])
    (outside : (m :: i).getLast? ≠ some "s" ∧ (n :: j).getLast? ≠ some "s") :
    (copying f g).Sends d [f, g] where
  driver := rfl
  copies := rfl
  plain := by
    simp only [copying]
    decide
  formed := formed
  found := by
    simp only [List.mem_cons, List.not_mem_nil, or_false, forall_eq_or_imp, forall_eq]
    exact ⟨⟨_, first⟩, ⟨_, second⟩⟩
  named := by
    simp only [List.mem_cons, List.not_mem_nil, or_false, forall_eq_or_imp, forall_eq]
    exact named
  distinct := by
    refine List.pairwise_pair.mpr fun loc here there => apart ?_
    exact (first.unique here).trans (second.unique there).symm
  outside := by
    intro top leads
    cases base.symm.trans leads
    simp only [List.mem_cons, List.not_mem_nil, or_false, forall_eq_or_imp, forall_eq]
    refine ⟨fun names source => outside.1 ?_, fun names source => outside.2 ?_⟩
    · rw [first.unique source, Disk.under, List.getLast?_concat]
    · rw [second.unique source, Disk.under, List.getLast?_concat]

/-- An upload of two files can end in success, with this in the place of the first of them, which held
that when it was submitted. -/
def Ends (d : Disk) (f g : String) (held stored : ByteArray) : Prop :=
  ∃ w u world, Run (Memory.keyStore fun _ => none) (copied d f g) (w, u) ∧
    u.phase = .over (.finished true) ∧ u.interrupted = false ∧
    Submitted (Memory.keyStore fun _ => none) (copied d f g) (w, u) f world ∧
    world.disk.read f = .ok held ∧ w.disk.read ((copying f g).dest f) = .ok stored

theorem eq_ok_of_toOption {α : Type} {reply : Disk.Reply α} {a : α}
    (known : reply.toOption = some a) : reply = .ok a := by
  cases reply <;> cases known
  rfl

theorem ends_of_schedule {d : Disk} {f g : String} {held stored : ByteArray}
    {before asked last : World Memory × Upload} (early : after 7 (copied d f g) = before)
    (step : after 1 before = asked) (late : after 100 asked = last)
    (phases : before.2.phase = .listing [.file f, .file g] ∧ asked.2.phase = .submitting [.file g] ∧
      last.2.phase = .over (.finished true) ∧ last.2.interrupted = false)
    (same : asked.1 = before.1) (read : (before.1.disk.read f).toOption = some held)
    (found : (last.1.disk.read ((copying f g).dest f)).toOption = some stored) :
    Ends d f g held stored := by
  have first := early ▸ run_after 7 (copied d f g)
  have second := step ▸ run_after 1 before
  have third := late ▸ run_after 100 asked
  obtain ⟨world, u⟩ := before
  obtain ⟨world', v⟩ := asked
  cases same
  exact ⟨last.1, last.2, world, (first.trans second).trans third, phases.2.2.1, phases.2.2.2,
    ⟨u, v, _, first, phases.1, second, phases.2.1, third⟩, eq_ok_of_toOption read,
    eq_ok_of_toOption found⟩

theorem sends_rooms {g n : String} (second : rooms.Source g [n, "b"] [n, "b"])
    (named : Path.fileName? g ≠ none) : (copying "a/x" g).Sends rooms ["a/x", g] := by
  have first : rooms.Source "a/x" ["x", "a"] ["x", "a"] := source_of_eq rfl rfl rfl
  exact sends_copying formed_rooms first second ⟨by decide, named⟩ (by simp) rfl (by simp)

theorem ships_rooms : (copying "a/x" "b/y").Ships rooms ["a/x", "b/y"] where
  toSends := sends_rooms (source_of_eq rfl rfl rfl) (by decide)
  remotes := by decide
  linkless := by
    intro top _
    refine Disk.linkless_of_entries (fun pair member target => ?_) _
    simp only [rooms, List.mem_cons, List.not_mem_nil, or_false] at member
    rcases member with rfl | rfl | rfl | rfl | rfl <;> simp

theorem keeps_files_of_rooms : ∃ w u,
    Run (Memory.keyStore fun _ => none) (copied rooms "a/x" "b/y") (w, u) ∧
      u.phase = .over (.finished true) ∧
      (u.interrupted = false → ∃ world,
        Submitted (Memory.keyStore fun _ => none) (copied rooms "a/x" "b/y") (w, u) "a/x" world) ∧
      ∀ world,
        Submitted (Memory.keyStore fun _ => none) (copied rooms "a/x" "b/y") (w, u) "a/x" world →
        ∃ bytes, world.disk.read "a/x" = .ok bytes ∧
          w.disk.read ((copying "a/x" "b/y").dest "a/x") = .ok bytes := by
  have ends : Ends rooms "a/x" "b/y" ⟨#[1]⟩ ⟨#[1]⟩ :=
    ends_of_schedule rfl rfl rfl (by decide +kernel) rfl (by decide +kernel) (by decide +kernel)
  obtain ⟨w, u, _, run, success, _⟩ := ends
  exact ⟨w, u, run, success, Run.keeps_files ships_rooms run success List.mem_cons_self⟩

/-- Files of one name go to one place, and a link in the store makes one place of two: a file is lost,
and the upload is a success. -/
theorem loses_files_of_one_place :
    ((copying "a/x" "b/x").Sends rooms ["a/x", "b/x"] ∧
      Ends rooms "a/x" "b/x" ⟨#[1]⟩ ⟨#[2]⟩) ∧
    (copying "a/x" "b/y").Sends crossed ["a/x", "b/y"] ∧
      Ends crossed "a/x" "b/y" ⟨#[1]⟩ ⟨#[3]⟩ := by
  refine ⟨⟨sends_rooms (source_of_eq rfl rfl rfl) (by decide), ?_⟩, ?_, ?_⟩
  · exact ends_of_schedule rfl rfl rfl (by decide +kernel) rfl (by decide +kernel)
      (by decide +kernel)
  · have first : crossed.Source "a/x" ["x", "a"] ["x", "a"] := source_of_eq rfl rfl rfl
    have second : crossed.Source "b/y" ["y", "b"] ["y", "b"] := source_of_eq rfl rfl rfl
    exact sends_copying formed_crossed first second (by decide) (by decide) rfl (by decide)
  · exact ends_of_schedule rfl rfl rfl (by decide +kernel) rfl (by decide +kernel)
      (by decide +kernel)

end Rooms

end Upload

end Spool
