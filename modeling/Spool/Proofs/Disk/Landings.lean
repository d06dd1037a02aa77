import Spool.Proofs.Disk.Arrivals
import Spool.Proofs.Disk.Beneath

/-!
Files that are put where a path below a base leads. The calls succeed as long as nothing is in the
way, and what is at each location afterwards is known.
-/

namespace Spool.Disk

variable {d e f : Disk} {r : Route} {base own : Loc} {path source : String} {outer : List String}
  {n : String} {bytes : ByteArray} {executable : Bool} {gone : Loc → Prop}

namespace Landing

variable (landing : d.Landing r base path outer n) (based : d.Based r base)
include landing based

theorem dir_goal : ∃ dir, under base (outer ++ [n]) = n :: dir ∧ d.at? dir = some .dir :=
  ⟨under base outer, under_concat base outer n, landing.inside based⟩

theorem swapped (swaps : d.Swaps e) : e.Landing r base path outer n := by
  refine ⟨landing.names, swaps.descend landing.through, landing.bare, landing.short, ?_, ?_⟩
  · intro isDir
    exact landing.leaf.1 (swaps.isDir.mp isDir)
  · exact (swaps.steady.based based).linkless (outer ++ [n]).reverse

theorem place_eq : d.place path = .ok ⟨under base outer, some n, false⟩ := by
  rw [based.place_eq landing.names, landing.through, landing.bare]

theorem target_eq : ∃ found, d.target path = .ok (under base (outer ++ [n]), found) := by
  obtain ⟨left, locate⟩ := based.locate_eq landing.names landing.through .creating
  have leaf := landing.leaf
  rw [under_concat] at leaf ⊢
  simp only [target, locate, landing.bare]
  cases entry : d.at? (n :: under base outer) with
  | none => exact ⟨_, by rw [explore_free landing.short entry]; rfl⟩
  | some old =>
    cases old with
    | dir => exact absurd entry leaf.1
    | file old executable => exact ⟨_, by rw [explore_file landing.short entry]; rfl⟩
    | link target => exact absurd entry (leaf.2 target)

theorem write (bytes : ByteArray) : ∃ e, d.write path bytes = (e, .ok ()) ∧
    d.Receives e (under base (outer ++ [n])) bytes fun _ => False := by
  obtain ⟨found, target⟩ := landing.target_eq based
  refine ⟨_, ?_, receives_put (landing.dir_goal based) landing.leaf bytes (found.getD false)⟩
  simp only [Disk.write, target]

theorem copy (found : d.locate .existing source = .ok (own, some (.file bytes executable)))
    (there : d.at? own = some (.file bytes executable)) (away : own ≠ under base (outer ++ [n])) :
    ∃ e, d.copy source path = (e, .ok ()) ∧
      d.Receives e (under base (outer ++ [n])) bytes fun _ => False := by
  obtain ⟨old, target⟩ := landing.target_eq based
  have still : (d.put (under base (outer ++ [n])) (.file .empty executable)).at? own =
      some (.file bytes executable) := (at?_put_of_ne d _ away).trans there
  refine ⟨_, ?_, receives_put (landing.dir_goal based) landing.leaf bytes executable⟩
  simp only [Disk.copy, found, target, still, put_put]

theorem rename {m : String} {dir : Loc} (formed : d.Formed)
    (found : d.place source = .ok ⟨dir, some m, false⟩) (fits : ¬ Route.maxName < m.utf8ByteSize)
    (there : d.at? (m :: dir) = some (.file bytes executable)) :
    ∃ e, d.rename source path = (e, .ok ()) ∧
      d.Receives e (under base (outer ++ [n])) bytes (· = m :: dir) := by
  have leaf := landing.leaf
  rw [under_concat] at leaf ⊢
  have allowed := formed.renameFault_eq_none there (fun same => by cases same)
    (landing.inside based) leaf.1
  have renamed : d.Renamed source path _ _ m n (.file bytes executable) :=
    ⟨found, landing.place_eq based, rfl, rfl, fits, landing.short, there, allowed⟩
  have done : (d.rename source path).2 = .ok () := by rw [renamed.eq]
  exact ⟨(d.rename source path).1, Prod.ext rfl done, (renamed.moved formed leaf.2).1⟩

/-- A file is written beside the place and renamed into it. -/
theorem write_rename {m side : String} (beside : d.Landing r base side outer m) (formed : d.Formed)
    (bytes : ByteArray) : ∃ e f, d.write side bytes = (e, .ok ()) ∧
      e.rename side path = (f, .ok ()) ∧
        d.Receives f (under base (outer ++ [n])) bytes (· = under base (outer ++ [m])) := by
  obtain ⟨e, written, first⟩ := beside.write based bytes
  have steady := first.swaps.steady
  have based' := steady.based based
  have place := (beside.swapped based first.swaps).place_eq based'
  obtain ⟨executable, there⟩ := first.there
  rw [under_concat] at there
  obtain ⟨f, renamed, second⟩ := (landing.swapped based first.swaps).rename based'
    (steady.formed formed) place beside.short there
  have both := first.trans second (.inr (under_concat base outer m))
  exact ⟨e, f, written, renamed, both.congr fun loc => by rw [under_concat, false_or]⟩

end Landing

theorem Receives.remove {goal : Loc} (receives : d.Receives e goal bytes gone)
    (there : IsLeaf (e.at? own)) (named : own ≠ []) (away : own ≠ goal) :
    d.Receives (e.remove own) goal bytes fun loc => gone loc ∨ loc = own := by
  obtain ⟨m, dir, rfl⟩ := List.exists_cons_of_ne_nil named
  obtain ⟨executable, goal'⟩ := receives.there
  refine ⟨receives.swaps.trans (swaps_remove there), ⟨executable, ?_⟩, fun loc other here => ?_,
    fun loc other still => ?_⟩
  · rw [at?_remove_of_ne e away.symm, goal']
  · by_cases same : loc = m :: dir
    · rw [same, at?_remove_self]
    · rw [at?_remove_of_ne e same]
      exact receives.left loc other (here.resolve_right same)
  · rw [at?_remove_of_ne e fun same => still (.inr same)]
    exact receives.others loc other fun here => still (.inl here)

theorem place_of_isDir (isDir : d.isDir path = true) : ∃ place, d.place path = .ok place ∧
    ∀ n, place.name = some n → ¬ Route.maxName < n.utf8ByteSize ∧ d.at? (n :: place.dir) ≠ none := by
  have read : Route.read path = .ok (Route.ofText path.toList) := by
    cases read : Route.read path with
    | error cause =>
      simp only [Disk.isDir, status?, locate, read] at isDir
      cases isDir
    | ok route => rw [read_eq_ofText read]
  obtain ⟨top, leads⟩ := leadsTo_of_isDir isDir
  obtain ⟨place, there, names⟩ := leads.place_cases read
  refine ⟨place, there, fun n named => ?_⟩
  obtain ⟨short, ⟨same, isDir⟩ | ⟨target, link⟩⟩ := names n named
  · exact ⟨short, by rw [same, isDir]; simp⟩
  · exact ⟨short, by rw [link]; simp⟩

theorem makeDirs_of_isDir (isDir : d.isDir path = true) : d.makeDirs path = (d, .ok ()) := by
  obtain ⟨place, there, fits⟩ := place_of_isDir isDir
  have made : d.makeDir path = (d, .error (.system Errno.entryExists)) := by
    obtain ⟨dir, name, slash⟩ := place
    unfold makeDir
    rw [there]
    cases name with
    | none => rfl
    | some n =>
      obtain ⟨short, taken⟩ := fits n rfl
      obtain ⟨entry, taken⟩ := Option.ne_none_iff_exists'.mp taken
      simp only [checkName, if_neg short, taken]
  have present : d.orPresent path (d.makeDir path) = (d, .ok ()) := by
    simp only [orPresent, made, isDir, and_true, if_true]
  unfold makeDirs
  simp only [makeDirsFrom]
  split
  · rfl
  · rw [present]

theorem parent?_of_steps_nil (none : (Route.ofText path.toList).steps = []) :
    Path.parent? path = Option.none := by
  rw [Route.steps_pieces] at none
  have idle : ∀ absolute (pieces : List (List Char)), (∀ piece ∈ pieces, piece = []) →
      Path.Pieces.dropIdle absolute pieces = [] := by
    intro absolute pieces all
    induction pieces with
    | nil => rfl
    | cons piece pieces ih =>
      rw [Path.Pieces.dropIdle, if_pos (all piece List.mem_cons_self)]
      exact ih fun p member => all p (List.mem_cons_of_mem piece member)
  have all : ∀ piece ∈ (Path.Pieces.ofText path.toList).pieces, piece = [] := by
    intro piece member
    exact Route.eq_nil_of_stepOf
      (List.filterMap_eq_nil_iff.mp none piece (List.mem_reverse.mpr member))
  simp only [Path.parent?, idle _ _ all]

/-- The directories on the way to a place are there, and nothing else has changed. -/
structure Opens (d e : Disk) (base : Loc) (outer : List String) : Prop where
  steady : d.Steady e
  dirs : ∀ loc, OnWay base outer loc → e.at? loc = some .dir
  others : ∀ loc, ¬ OnWay base outer loc → e.at? loc = d.at? loc

theorem Based.makeDirs_base (based : d.Based r base) (names : Names r path [] n) :
    ∃ parent, Path.parent? path = some parent ∧ d.makeDirs parent = (d, .ok ()) := by
  obtain ⟨front, stays, known, isFront, spells, k, steps⟩ := names.leads.parent_base
  rw [String.ofList_toList] at known
  refine ⟨String.ofList front, known, ?_⟩
  by_cases none : (Route.ofText front).steps = []
  · have root : Path.parent? (String.ofList front) = Option.none :=
      parent?_of_steps_nil (by rwa [String.toList_ofList])
    simp only [makeDirs, makeDirsFrom, root]
  · refine makeDirs_of_isDir ?_
    have some : front ≠ [] := by
      rintro rfl
      exact none rfl
    have way := based.explore_outer spells
    have absolute := Route.absolute_of_prefix isFront none
    rw [steps, ← start_eq (absolute.trans names.leads.absolute)] at way
    have leads : ∃ top, d.explore .existing Route.maxLinks (d.start (Route.ofText front)) true
        (Route.ofText front).steps = .ok (top, .some .dir) := by
      cases k with
      | zero =>
        rw [List.replicate_zero, List.append_nil] at way
        exact ⟨_, way⟩
      | succ k => exact explore_cut (by simp) way
    obtain ⟨top, leads⟩ := leads
    simp only [Disk.isDir, status?, locate, Route.read_of_prefix some isFront names.read,
      explore_slash leads, report]

theorem Based.makeDirs_around (based : d.Based r base) (names : Names r path outer n)
    (short : Short outer) (clear : ∀ loc, OnWay base outer loc → ∀ bytes executable,
      d.at? loc ≠ some (.file bytes executable)) : ∃ parent e,
      Path.parent? path = some parent ∧ d.makeDirs parent = (e, .ok ()) ∧ d.Opens e base outer := by
  rcases List.eq_nil_or_concat outer with rfl | ⟨up, m, rfl⟩
  · obtain ⟨parent, known, made⟩ := based.makeDirs_base names
    refine ⟨parent, d, known, made, .refl d, fun loc on => ?_, fun _ _ => rfl⟩
    obtain ⟨front, some, isFront, _⟩ := on
    exact absurd (List.prefix_nil.mp isFront) some
  · rw [List.concat_eq_append] at names short clear ⊢
    obtain ⟨parent, known, around⟩ := names.parent
    have made := makeDirs_made based (around up m rfl)
    refine ⟨parent, (d.makeDirs parent).1, known, ?_⟩
    generalize d.makeDirs parent = result at made
    cases made with
    | barred on file => exact absurd file (clear _ on _ _)
    | made _ here dirs kept =>
      exact ⟨by rw [if_pos short], steady_of_made based here dirs kept, dirs, kept⟩

theorem Opens.landing (opens : d.Opens e base outer) (based : d.Based r base)
    (names : Names r path outer n) (bare : (Route.ofText path.toList).slash = false)
    (short : Short (outer ++ [n])) (free : d.at? (under base (outer ++ [n])) ≠ some .dir) :
    e.Landing r base path outer n := by
  have based' := opens.steady.based based
  have through := descend_of_onWay (fun m member => short m (List.mem_append_left _ member))
    opens.dirs
  have off : ¬ OnWay base outer (under base (outer ++ [n])) := by
    rintro ⟨front, _, isFront, _, same⟩
    have longer := (under_inj.mp same) ▸ isFront.length_le
    simp only [List.length_append, List.length_cons, List.length_nil] at longer
    omega
  refine ⟨names, through, bare, Nat.not_lt_of_le (short n (by simp)), ?_, ?_⟩
  · rwa [opens.others _ off]
  · exact based'.linkless (outer ++ [n]).reverse

end Spool.Disk
