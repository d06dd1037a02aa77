import Spool.Proofs.Disk.Explore

/-!
Calls on paths below a base directory under which no links lie. What such a call does depends on the
names below the base alone, whatever way leads to the base.
-/

namespace Spool.Disk

variable {d : Disk} {r : Route} {base : Loc}

/-- The route leads to the base; below it there are no links, and everything lies in a directory. -/
structure Based (d : Disk) (r : Route) (base : Loc) : Prop where
  way : d.explore .existing Route.maxLinks (d.start r) true r.steps = .ok (base, some .dir)
  isDir : d.at? base = some .dir
  linkless : d.Linkless base
  rooted : ∀ n names, d.at? (n :: (names ++ base)) ≠ none → d.at? (names ++ base) = some .dir

/-- A path below a base that can be passed to the system. -/
structure Names (r : Route) (path : String) (outer : List String) (n : String) : Prop where
  leads : Route.Leads r path.toList outer n
  read : Route.read path = .ok (Route.ofText path.toList)

/-- Directories and links stay as they are, and what is new lies in a directory. -/
structure Steady (d e : Disk) : Prop where
  here : e.here = d.here
  dirs : ∀ loc, d.at? loc = some .dir → e.at? loc = some .dir
  links : ∀ loc target, e.at? loc = some (.link target) ↔ d.at? loc = some (.link target)
  parents : ∀ n dir, d.at? (n :: dir) = none → e.at? (n :: dir) ≠ none → e.at? dir = some .dir

namespace Steady

variable {e f : Disk}

theorem refl (d : Disk) : d.Steady d :=
  ⟨rfl, fun _ there => there, fun _ _ => Iff.rfl, fun _ _ none there => absurd none there⟩

theorem trans (first : d.Steady e) (second : e.Steady f) : d.Steady f := by
  refine ⟨second.here.trans first.here, fun loc there => second.dirs loc (first.dirs loc there),
    fun loc target => (second.links loc target).trans (first.links loc target),
    fun n dir none there => ?_⟩
  by_cases between : e.at? (n :: dir) = .none
  · exact second.parents n dir between there
  · exact second.dirs dir (first.parents n dir none between)

theorem keeps (steady : d.Steady e) (lost : Loc → Prop) : d.Keeps e lost := by
  refine ⟨steady.here, fun loc entry _ there other => ?_⟩
  cases entry with
  | dir => exact steady.dirs loc there
  | file bytes executable => exact absurd rfl (other bytes executable)
  | link target => exact (steady.links loc target).mpr there

theorem linkless (steady : d.Steady e) (linkless : d.Linkless base) : e.Linkless base :=
  fun names target there => linkless names target ((steady.links _ target).mp there)

theorem rooted (steady : d.Steady e) {n : String} {dir : Loc}
    (rooted : d.at? (n :: dir) ≠ none → d.at? dir = some .dir) (there : e.at? (n :: dir) ≠ none) :
    e.at? dir = some .dir := by
  by_cases before : d.at? (n :: dir) = none
  · exact steady.parents n dir before there
  · exact steady.dirs dir (rooted before)

theorem based (steady : d.Steady e) (based : d.Based r base) : e.Based r base := by
  have way := explore_of_keeps (steady.keeps fun _ => False) (fun _ => False.elim) based.way
    (.inl rfl)
  refine ⟨?_, steady.dirs base based.isDir, steady.linkless based.linkless,
    fun n names => steady.rooted (based.rooted n names)⟩
  rwa [show e.start r = d.start r by simp only [start, steady.here]]

end Steady

theorem start_eq {r' : Route} (same : r'.absolute = r.absolute) : d.start r' = d.start r := by
  simp only [start, same]

namespace Based

variable {path : String} {outer : List String} {n : String}

theorem explore_outer (based : d.Based r base) {mid : List Step}
    (spells : Route.Spells mid outer) :
    d.explore .existing Route.maxLinks (d.start r) true (r.steps ++ mid) =
      (d.descend base outer).map fun loc => (loc, some .dir) := by
  by_cases none : mid = []
  · subst none
    cases spells
    rw [List.append_nil, based.way]
    rfl
  · obtain ⟨left, goesOn⟩ := explore_append based.way
    rw [goesOn _ _ _ none, explore_spells based.linkless spells]

theorem place_eq (based : d.Based r base) (names : Names r path outer n) :
    d.place path =
      match d.descend base outer with
      | .error errno => .error (.system errno)
      | .ok dir => .ok ⟨dir, some n, (Route.ofText path.toList).slash⟩ := by
  obtain ⟨mid, steps, spells⟩ := names.leads.steps
  have way := based.explore_outer spells
  rw [← start_eq names.leads.absolute] at way
  simp only [place, names.read, steps, List.dropLast_concat, List.getLast?_concat, way]
  cases d.descend base outer <;> rfl

theorem locate_eq (based : d.Based r base) (names : Names r path outer n) {dir : Loc}
    (through : d.descend base outer = .ok dir) (aim : Aim) :
    ∃ left, d.locate aim path =
      report (d.explore aim left dir (Route.ofText path.toList).slash [.name n]) := by
  obtain ⟨mid, steps, spells⟩ := names.leads.steps
  have way := based.explore_outer spells
  rw [through, ← start_eq names.leads.absolute] at way
  obtain ⟨left, goesOn⟩ := explore_append way
  refine ⟨left, ?_⟩
  simp only [locate, names.read]
  rw [steps, goesOn _ _ _ (by simp)]

theorem makeDir_eq (based : d.Based r base) (names : Names r path outer n) :
    d.makeDir path =
      match d.descend base outer with
      | .error errno => (d, .error (.system errno))
      | .ok dir =>
        if Route.maxName < n.utf8ByteSize then (d, .error (.system Errno.nameTooLong))
        else
          match d.at? (n :: dir) with
          | some _ => (d, .error (.system Errno.entryExists))
          | none => (d.put (n :: dir) .dir, .ok ()) := by
  unfold makeDir
  rw [based.place_eq names]
  cases d.descend base outer with
  | error errno => rfl
  | ok dir =>
    by_cases long : Route.maxName < n.utf8ByteSize
    · simp only [checkName, long, if_true]
    · cases entry : d.at? (n :: dir) <;> simp only [checkName, long, entry, if_false]

theorem isDir_eq (based : d.Based r base) (names : Names r path outer n) {dir : Loc}
    (through : d.descend base outer = .ok dir) (short : ¬ Route.maxName < n.utf8ByteSize) :
    d.isDir path = true ↔ d.at? (n :: dir) = some .dir := by
  obtain ⟨left, locate⟩ := based.locate_eq names through .existing
  have linkless : ∀ target, d.at? (n :: dir) ≠ some (.link target) := by
    intro target
    rw [descend_eq_ok through, ← under_concat]
    exact based.linkless _ target
  simp only [Disk.isDir, status?, locate]
  rw [explore_eq, exploreWith_name, if_neg short]
  cases entry : d.at? (n :: dir) with
  | none => simp [report]
  | some old =>
    cases old with
    | dir => simp [report, exploreWith]
    | file bytes executable =>
      cases (Route.ofText path.toList).slash <;> simp [report]
    | link target => exact absurd entry (linkless target)

end Based

end Spool.Disk
