import Spool.Proofs.Disk.Ends

/-!
Paths that lead to a directory and down from there. Where no links lie below the directory, nothing
outside of it can come of calls on such a path, whatever the names on it.
-/

namespace Spool.Disk

variable {d e : Disk} {aim : Aim} {links : Nat} {here top loc dir : Loc} {slash : Bool}
  {path n : String} {found : Option Entry} {below : List Step}

/-- The path leads to the directory, and what steps it has left do not go up. -/
structure Descends (d : Disk) (top : Loc) (path : String) (below : List Step) : Prop where
  down : Step.up ∉ below
  way : ∃ front, (Route.ofText path.toList).steps = front ++ below ∧
    d.explore .existing Route.maxLinks (d.start (Route.ofText path.toList)) true front =
      .ok (top, some .dir)

theorem Linkless.of_suffix (linkless : d.Linkless top) (below : top <:+ loc) (target : String) :
    d.at? loc ≠ some (.link target) := by
  obtain ⟨names, rfl⟩ := below
  exact linkless names target

/-- Steps that do not go up end at or below where they begin. -/
theorem Way.suffix {steps : List Step} {spot : Spot} (linkless : d.Linkless here)
    (down : Step.up ∉ steps) (way : d.Way aim links here slash steps spot) : here <:+ spot.1 := by
  induction way with
  | here _ => exact List.suffix_rfl
  | stay _ ih => exact ih linkless fun member => down (.tail _ member)
  | up _ _ => exact absurd List.mem_cons_self down
  | dir _ _ _ ih =>
    exact (List.suffix_cons _ _).trans (ih linkless.down fun member => down (.tail _ member))
  | file | free => exact List.suffix_cons _ _
  | link _ entry _ _ _ => exact absurd entry (linkless [_] _)

theorem start_of_prefix {front : String} (isFront : front.toList <+: path.toList)
    (some : (Route.ofText front.toList).steps ≠ []) :
    d.start (Route.ofText front.toList) = d.start (Route.ofText path.toList) :=
  start_eq (Route.absolute_of_prefix isFront some)

theorem leadsTo_start (none : (Route.ofText path.toList).steps = []) :
    d.LeadsTo path (d.start (Route.ofText path.toList)) := by
  rw [LeadsTo, none]
  exact explore_stays d _ _ 0

theorem leadsTo_of_initial {front : String} {rest : List Step} {t : Loc}
    (isFront : front.toList <+: path.toList)
    (way : d.explore .existing Route.maxLinks (d.start (Route.ofText path.toList)) true
      ((Route.ofText front.toList).steps ++ rest) = .ok (t, .some .dir)) : ∃ t, d.LeadsTo front t := by
  by_cases none : (Route.ofText front.toList).steps = []
  · exact ⟨_, leadsTo_start none⟩
  · rw [← start_of_prefix isFront none] at way
    by_cases whole : rest = []
    · rw [whole, List.append_nil] at way
      exact ⟨t, way⟩
    · exact explore_cut whole way

namespace LeadsTo

variable {t : Loc}

theorem keep (steady : d.Steady e) (leads : d.LeadsTo path t) : e.LeadsTo path t := by
  have way := explore_of_keeps (steady.keeps fun _ => False) (fun _ => False.elim) leads (.inl rfl)
  rwa [show d.start (Route.ofText path.toList) = e.start (Route.ofText path.toList) by
    simp only [start, steady.here]] at way

theorem place_cases (leads : d.LeadsTo path t)
    (read : Route.read path = .ok (Route.ofText path.toList)) : ∃ place, d.place path = .ok place ∧
      ∀ n, place.name = some n → ¬ Route.maxName < n.utf8ByteSize ∧
        (n :: place.dir = t ∧ d.at? t = some .dir ∨
          ∃ target, d.at? (n :: place.dir) = some (.link target)) := by
  rw [LeadsTo] at leads
  unfold Disk.place
  rw [read]
  dsimp only
  rcases List.eq_nil_or_concat (Route.ofText path.toList).steps with none | ⟨front, last, split⟩
  · rw [none, List.dropLast_nil, explore_eq]
    exact ⟨_, rfl, fun n named => by cases named⟩
  · rw [List.concat_eq_append] at split
    rw [split] at leads
    obtain ⟨dir, cut⟩ := explore_cut (List.cons_ne_nil last []) leads
    obtain ⟨left, goesOn⟩ := explore_append cut
    rw [goesOn _ _ _ (List.cons_ne_nil last [])] at leads
    simp only [split, List.dropLast_concat, List.getLast?_concat, cut]
    cases last with
    | stay | up => exact ⟨_, rfl, fun n named => by cases named⟩
    | name m =>
      refine ⟨_, rfl, fun n named => ?_⟩
      cases named
      cases way_of_explore leads with
      | dir short entry ends =>
        cases ends.eq_here
        exact ⟨short, .inl ⟨rfl, entry⟩⟩
      | link short entry _ _ => exact ⟨short, .inr ⟨_, entry⟩⟩

theorem taken (leads : d.LeadsTo path t) (place : d.place path = .ok ⟨dir, some n, slash⟩) :
    n :: dir = t ∧ d.at? t = some .dir ∨ ∃ target, d.at? (n :: dir) = some (.link target) := by
  obtain ⟨known, there, names⟩ := leads.place_cases (read_of_place place)
  cases there.symm.trans place
  exact (names n rfl).2

/-- No file is created where a directory is. -/
theorem not_created (formed : d.Formed) (leads : d.LeadsTo path t) :
    d.locate .creating path ≠ .ok (loc, found) := by
  intro way
  obtain ⟨opens, same⟩ := open_of_locate formed way
  -- a file that was put there would be found under the same path
  have steady := (opens.swaps_put .empty false).steady
  have placed := at?_put d opens.ne_nil (.file .empty false)
  have still := leads.keep steady
  have lands := locate_lands (steady.keeps _) placed (same ▸ opens.1.1) way
  obtain ⟨r, read, ends⟩ := way_of_locate lands
  cases read_eq_ofText read
  cases ends.unique still

end LeadsTo

namespace Descends

theorem keep (steady : d.Steady e) (descends : d.Descends top path below) :
    e.Descends top path below := by
  obtain ⟨front, steps, way⟩ := descends.way
  refine ⟨descends.down, front, steps, ?_⟩
  have again := explore_of_keeps (steady.keeps fun _ => False) (fun _ => False.elim) way (.inl rfl)
  rwa [show d.start (Route.ofText path.toList) = e.start (Route.ofText path.toList) by
    simp only [start, steady.here]] at again

theorem leadsTo (descends : d.Descends top path []) : d.LeadsTo path top := by
  obtain ⟨front, steps, way⟩ := descends.way
  rw [LeadsTo, steps, List.append_nil]
  exact way

variable (linkless : d.Linkless top) (descends : d.Descends top path below) (more : below ≠ [])
include linkless descends more

theorem place (place : d.place path = .ok ⟨dir, some n, slash⟩) : top <:+ dir := by
  obtain ⟨front, steps, way⟩ := descends.way
  obtain ⟨r, read, _, _, ends⟩ := way_of_place place
  cases read_eq_ofText read
  rw [steps, List.dropLast_append_of_ne_nil more] at ends
  by_cases none : below.dropLast = []
  · rw [none, List.append_nil] at ends
    cases ends.unique way
    exact List.suffix_rfl
  · obtain ⟨left, goesOn⟩ := explore_append way
    have stays : Step.up ∉ below.dropLast := fun member =>
      descends.down (List.dropLast_subset below member)
    exact (way_of_explore ((goesOn _ _ _ none).symm.trans ends.explore)).suffix linkless stays

theorem locate (way : d.locate aim path = .ok (loc, found)) : top <:+ loc := by
  obtain ⟨front, steps, through⟩ := descends.way
  obtain ⟨left, goesOn⟩ := explore_append through
  obtain ⟨r, read, ends⟩ := way_of_locate way
  cases read_eq_ofText read
  rw [steps] at ends
  exact (way_of_explore ((goesOn _ _ _ more).symm.trans ends.explore)).suffix linkless descends.down

end Descends

/-- The path leads to the directory and down from there, or to some other directory. -/
def Anchored (d : Disk) (top : Loc) (path : String) : Prop :=
  (∃ below, d.Descends top path below) ∨ ∃ t, d.LeadsTo path t

namespace Anchored

theorem keep (steady : d.Steady e) (anchored : d.Anchored top path) : e.Anchored top path := by
  rcases anchored with ⟨below, descends⟩ | ⟨t, leads⟩
  · exact .inl ⟨below, descends.keep steady⟩
  · exact .inr ⟨t, leads.keep steady⟩

theorem around {front : String} (known : Path.parent? path = some front)
    (anchored : d.Anchored top path) : d.Anchored top front := by
  obtain ⟨isFront, rest, -, steps⟩ := Route.steps_of_parent? known
  rcases anchored with ⟨below, down, mid, split, way⟩ | ⟨t, leads⟩
  · by_cases none : (Route.ofText front.toList).steps = []
    · exact .inr ⟨_, leadsTo_start none⟩
    · rcases List.append_eq_append_iff.mp (steps.symm.trans split) with
        ⟨between, whole, -⟩ | ⟨between, whole, tail⟩
      · rw [whole] at way
        exact .inr (leadsTo_of_initial isFront way)
      · rw [← start_of_prefix isFront none] at way
        refine .inl ⟨between, fun member => down ?_, mid, whole, way⟩
        rw [tail]
        exact List.mem_append_left rest member
  · rw [LeadsTo, steps] at leads
    exact .inr (leadsTo_of_initial isFront leads)

theorem vacant (linkless : d.Linkless top) (anchored : d.Anchored top path)
    (place : d.place path = .ok ⟨dir, some n, slash⟩) (free : d.at? (n :: dir) = none) :
    top <:+ n :: dir := by
  have leads : ∀ {t}, ¬ d.LeadsTo path t := by
    intro t leads
    rcases leads.taken place with ⟨same, isDir⟩ | ⟨target, link⟩
    · rw [same, isDir] at free
      cases free
    · rw [link] at free
      cases free
  rcases anchored with ⟨below, descends⟩ | ⟨t, impossible⟩
  · by_cases none : below = []
    · subst none
      exact absurd descends.leadsTo leads
    · exact (descends.place linkless none place).trans (List.suffix_cons n dir)
  · exact absurd impossible leads

end Anchored

section Make

variable (formed : d.Formed) (linkless : d.Linkless top) (off : ¬ top <:+ loc)
include formed linkless off

omit formed in
theorem makeDir_beneath (anchored : d.Anchored top path) :
    (d.orPresent path (d.makeDir path)).1.at? loc = d.at? loc := by
  rcases orPresent_cases d path (d.makeDir path) with same | ⟨same, _⟩
  · rw [same]
    rcases makeDir_cases d path with ⟨_, none⟩ | ⟨dir, n, slash, place, _, free, made⟩
    · rw [none]
    · rw [made]
      refine at?_put_of_ne d .dir fun here => off ?_
      rw [here]
      exact anchored.vacant linkless place free
  · rw [same]

theorem makeDirsFrom_beneath (fuel : Nat) (anchored : d.Anchored top path) :
    (d.makeDirsFrom fuel path).1.at? loc = d.at? loc := by
  induction fuel generalizing path with
  | zero => rfl
  | succ fuel ih =>
    have last := makeDir_beneath linkless off anchored
    simp only [makeDirsFrom]
    split
    · rfl
    · next parent known =>
      generalize d.orPresent path (d.makeDir path) = made at last
      split
      · split
        · have around := ih (anchored.around known)
          have steady := (makeDirsFrom_grows formed fuel parent).steady
          generalize d.makeDirsFrom fuel parent = outer at around steady
          obtain ⟨e, reply⟩ := outer
          cases reply with
          | error cause => exact around
          | ok _ =>
            have again := makeDir_beneath (steady.linkless linkless) off (anchored.keep steady)
            exact again.trans around
        · rfl
      · exact last

theorem makeDirs_beneath (anchored : d.Anchored top path) :
    (d.makeDirs path).1.at? loc = d.at? loc :=
  makeDirsFrom_beneath formed linkless off _ anchored

end Make

end Spool.Disk
