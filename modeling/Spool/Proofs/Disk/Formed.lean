import Spool.Proofs.Disk.Below

/-!
Disks whose entries lie in directories. Where no links lie on such a disk, a path leads where its
text says, if it leads anywhere.
-/

namespace Spool.Disk

variable {d : Disk} {aim : Aim} {links : Nat} {here loc : Loc} {slash : Bool} {path : String}

/-- Every entry lies in a directory, and relative paths begin at one. -/
structure Formed (d : Disk) : Prop where
  home : d.at? d.here = some .dir
  rooted : ∀ n dir, d.at? (n :: dir) ≠ none → d.at? dir = some .dir

theorem mem_of_at? {n : String} {dir : Loc} {entry : Entry} (there : d.at? (n :: dir) = some entry) :
    (n :: dir, entry) ∈ d.entries := by
  obtain ⟨front, back, split, _⟩ := List.lookup_eq_some_iff.mp there
  rw [split]
  exact List.mem_append_right _ List.mem_cons_self

theorem key_of_at? (there : d.at? loc ≠ none) : loc = [] ∨ loc ∈ d.entries.map Prod.fst := by
  cases loc with
  | nil => exact .inl rfl
  | cons n dir =>
    obtain ⟨entry, there⟩ := Option.ne_none_iff_exists'.mp there
    exact .inr (List.mem_map_of_mem (mem_of_at? there))

theorem formed_of_entries (home : d.at? d.here = some .dir)
    (inside : ∀ pair ∈ d.entries, d.at? pair.1.tail = some .dir) : d.Formed := by
  refine ⟨home, fun n dir there => ?_⟩
  obtain ⟨entry, there⟩ := Option.ne_none_iff_exists'.mp there
  exact inside _ (mem_of_at? there)

theorem linkless_of_entries (none : ∀ pair ∈ d.entries, ∀ target, pair.2 ≠ .link target)
    (base : Loc) : d.Linkless base := by
  intro names target there
  cases loc : names ++ base with
  | nil =>
    rw [loc] at there
    cases there
  | cons n dir =>
    rw [loc] at there
    exact none _ (mem_of_at? there) target rfl

theorem Linkless.of_root (linkless : d.Linkless []) (base : Loc) : d.Linkless base := by
  intro names target
  rw [← List.append_nil (names ++ base)]
  exact linkless (names ++ base) target

theorem Linkless.at?_ne (linkless : d.Linkless []) (loc : Loc) (target : String) :
    d.at? loc ≠ some (.link target) := by
  have none := linkless loc target
  rwa [List.append_nil] at none

namespace Formed

theorem tail (formed : d.Formed) (there : d.at? loc = some .dir) : d.at? loc.tail = some .dir := by
  cases loc with
  | nil => rfl
  | cons n dir => exact formed.rooted n dir (by rw [there]; simp)

theorem start (formed : d.Formed) (r : Route) : d.at? (d.start r) = some .dir := by
  unfold Disk.start
  split
  · rfl
  · exact formed.home

theorem isDir_of_way (formed : d.Formed) {steps : List Step} {spot : Spot}
    (inside : d.at? here = some .dir) (way : d.Way aim links here slash steps spot)
    (isDir : spot.2 = some .dir) : d.at? spot.1 = some .dir := by
  induction way with
  | here _ => exact inside
  | stay _ ih => exact ih inside isDir
  | up _ ih => exact ih (formed.tail inside) isDir
  | dir _ entry _ ih => exact ih entry isDir
  | file | free => cases isDir
  | link _ _ _ _ ih =>
    refine ih ?_ isDir
    split
    · rfl
    · exact inside

theorem based (formed : d.Formed) {r : Route} {base : Loc} (linkless : d.Linkless base)
    (way : d.explore .existing Route.maxLinks (d.start r) true r.steps = .ok (base, some .dir)) :
    d.Based r base :=
  ⟨way, formed.isDir_of_way (formed.start r) (way_of_explore way) rfl, linkless,
    fun n _ there => formed.rooted n _ there⟩

end Formed

theorem Steady.formed {e : Disk} (steady : d.Steady e) (formed : d.Formed) : e.Formed :=
  ⟨by rw [steady.here]; exact steady.dirs _ formed.home,
    fun n dir => steady.rooted (formed.rooted n dir)⟩

/-- Where steps lead when every name is that of a directory. -/
def walk : Loc → List Step → Loc
  | here, [] => here
  | here, .stay :: rest => walk here rest
  | here, .up :: rest => walk here.tail rest
  | here, .name n :: rest => walk (n :: here) rest

theorem walk_append (here : Loc) (front back : List Step) :
    walk here (front ++ back) = walk (walk here front) back := by
  induction front generalizing here with
  | nil => rfl
  | cons step front ih => cases step <;> exact ih _

/-- Without links a way leads where it says. -/
theorem Way.eq_walk (linkless : d.Linkless []) {steps : List Step} {spot : Spot}
    (way : d.Way aim links here slash steps spot) : spot.1 = walk here steps := by
  induction way with
  | here _ | file | free => rfl
  | stay _ ih | up _ ih | dir _ _ _ ih => exact ih
  | link _ entry _ _ _ => exact absurd entry (linkless.at?_ne _ _)

theorem eq_walk_of_explore (linkless : d.Linkless []) {steps : List Step} {found : Option Entry}
    (way : d.explore aim links here slash steps = .ok (loc, found)) : loc = walk here steps :=
  (way_of_explore way).eq_walk linkless

/-- Where a path leads on a disk without links, if it leads anywhere. -/
def lead (d : Disk) (path : String) : Loc :=
  walk (d.start (Route.ofText path.toList)) (Route.ofText path.toList).steps

theorem read_eq_ofText {r : Route} (read : Route.read path = .ok r) :
    r = Route.ofText path.toList := by
  unfold Route.read at read
  split at read
  · cases read
  · split at read
    · cases read
    · split at read
      · cases read
      · cases read
        rfl

theorem read_of_place {place : Place} (there : d.place path = .ok place) :
    Route.read path = .ok (Route.ofText path.toList) := by
  cases read : Route.read path with
  | error cause =>
    rw [Disk.place, read] at there
    cases there
  | ok r => rw [read_eq_ofText read]

theorem eq_lead_of_locate (linkless : d.Linkless []) {found : Option Entry}
    (way : d.locate aim path = .ok (loc, found)) : loc = d.lead path := by
  obtain ⟨r, read, way⟩ := way_of_locate way
  cases read_eq_ofText read
  exact way.eq_walk linkless

theorem Steady.lead {e : Disk} (steady : d.Steady e) (path : String) : e.lead path = d.lead path := by
  simp only [Disk.lead, Disk.start, steady.here]

/-- The path leads to a directory. Nothing is said of whether it can be passed to the system: the empty
text leads to where relative paths begin, and names are joined to it without a slash. -/
def LeadsTo (d : Disk) (path : String) (top : Loc) : Prop :=
  d.explore .existing Route.maxLinks (d.start (Route.ofText path.toList)) true
    (Route.ofText path.toList).steps = .ok (top, some .dir)

theorem leadsTo_of_isDir (isDir : d.isDir path = true) : ∃ top, d.LeadsTo path top := by
  unfold Disk.isDir status? locate at isDir
  cases read : Route.read path with
  | error cause => rw [read] at isDir; cases isDir
  | ok r =>
    cases read_eq_ofText read
    simp only [read] at isDir
    cases way : d.explore .existing Route.maxLinks (d.start (Route.ofText path.toList))
        (Route.ofText path.toList).slash (Route.ofText path.toList).steps with
    | error errno => rw [way] at isDir; cases isDir
    | ok spot =>
      obtain ⟨loc, found⟩ := spot
      rw [way] at isDir
      simp only [report] at isDir
      split at isDir
      · exact ⟨loc, explore_slash way true⟩
      · cases isDir

theorem Formed.based_of_isDir (formed : d.Formed) (linkless : d.Linkless [])
    (isDir : d.isDir path = true ∨ path.toList = []) :
    d.Based (Route.ofText path.toList) (d.lead path) := by
  refine formed.based (linkless.of_root _) ?_
  rcases isDir with isDir | empty
  · obtain ⟨top, way⟩ := leadsTo_of_isDir isDir
    rw [LeadsTo, eq_walk_of_explore linkless way] at way
    exact way
  · have none : Route.ofText path.toList = ⟨false, [], false⟩ := by rw [empty]; rfl
    rw [lead, none]
    rfl

theorem eq_lead_of_place (linkless : d.Linkless []) {place : Place} {n : String}
    (there : d.place path = .ok place) (named : place.name = some n) :
    n :: place.dir = d.lead path := by
  obtain ⟨r, read, _, last, way⟩ := way_of_place there
  cases read_eq_ofText read
  rw [lead, last n named, walk_append, ← way.eq_walk linkless]
  rfl

end Spool.Disk
