import Spool.Proofs.Disk.Codes
import Spool.Proofs.Disk.Landings

/-!
Paths that keep out of a base. What they lead to does not depend on what lies below it; and where
they lead to nothing, a file cannot be brought from there.
-/

namespace Spool.Disk

variable {d e : Disk} {top loc : Loc} {path source : String}

/-- The location lies below the base, and is not the base itself. -/
def Within (top loc : Loc) : Prop := ∃ names, names ≠ [] ∧ loc = under top names

/-- No step of the path leads below the base. -/
def Aside (d : Disk) (top : Loc) (path : String) : Prop :=
  ∀ front, front <+: (Route.ofText path.toList).steps →
    ¬ Within top (walk (d.start (Route.ofText path.toList)) front)

/-- A way that keeps out of the base ends in the same when the disk differs below the base only. When
something is missing elsewhere, too, it ends in the same or in an error. -/
theorem explore_aside (missing : Prop) (links : Nat) (slash : Bool) (linkless : d.Linkless [])
    (same : ∀ loc, ¬ Within top loc → e.at? loc = d.at? loc ∨ missing ∧ e.at? loc = none)
    {here : Loc} {steps : List Step}
    (aside : ∀ front, front <+: steps → ¬ Within top (walk here front)) :
    e.explore .existing links here slash steps = d.explore .existing links here slash steps ∨
      missing ∧ ∃ errno, e.explore .existing links here slash steps = .error errno := by
  rw [explore_eq, explore_eq]
  induction steps generalizing here with
  | nil => exact .inl rfl
  | cons step rest ih =>
    have later : ∀ front, front <+: rest → step :: front <+: step :: rest := fun _ isFront =>
      List.cons_prefix_cons.mpr ⟨rfl, isFront⟩
    cases step with
    | stay => exact ih fun front isFront => aside (.stay :: front) (later front isFront)
    | up => exact ih fun front isFront => aside (.up :: front) (later front isFront)
    | name n =>
      have here' := same _ (aside [.name n] (later [] (List.nil_prefix ..)))
      change e.at? (n :: here) = d.at? (n :: here) ∨ missing ∧ e.at? (n :: here) = none at here'
      rw [exploreWith_name, exploreWith_name]
      split
      · exact .inl rfl
      · rcases here' with there | ⟨lost, none⟩
        · rw [there]
          cases entry : d.at? (n :: here) with
          | none => exact .inl rfl
          | some old =>
            cases old with
            | dir => exact ih fun front isFront => aside (.name n :: front) (later front isFront)
            | file => exact .inl rfl
            | link target => exact absurd entry (linkless.at?_ne _ target)
        · rw [none]
          exact .inr ⟨lost, _, rfl⟩

theorem locate_aside (linkless : d.Linkless []) (here : e.here = d.here)
    (same : ∀ loc, ¬ Within top loc → e.at? loc = d.at? loc) (aside : d.Aside top path) :
    e.locate .existing path = d.locate .existing path := by
  unfold locate
  cases read : Route.read path with
  | error cause => rfl
  | ok r =>
    cases read_eq_ofText read
    have way := explore_aside False Route.maxLinks (Route.ofText path.toList).slash linkless
      (fun loc off => .inl (same loc off)) aside
    have start : e.start (Route.ofText path.toList) = d.start (Route.ofText path.toList) := by
      simp only [Disk.start, here]
    dsimp only
    rw [start, way.resolve_right fun no => no.1]

theorem locate_of_missing (linkless : d.Linkless []) (here : e.here = d.here)
    (same : ∀ loc, ¬ Within top loc → e.at? loc = d.at? loc ∨ e.at? loc = none)
    (aside : d.Aside top path) {spot : Spot} (found : e.locate .existing path = .ok spot) :
    d.locate .existing path = .ok spot := by
  unfold locate at found ⊢
  cases read : Route.read path with
  | error cause => rw [read] at found; cases found
  | ok r =>
    cases read_eq_ofText read
    have way := explore_aside True Route.maxLinks (Route.ofText path.toList).slash linkless
      (fun loc off => (same loc off).imp_right fun none => ⟨trivial, none⟩) aside
    have start : e.start (Route.ofText path.toList) = d.start (Route.ofText path.toList) := by
      simp only [Disk.start, here]
    simp only [read, start] at found
    dsimp only
    rcases way with alike | ⟨_, errno, fails⟩
    · rwa [alike] at found
    · rw [fails] at found
      cases found

theorem explore_cut_error (linkless : d.Linkless []) {links : Nat} {here : Loc} {slash : Bool}
    {front rest : List Step} {errno : Int} (more : rest ≠ [])
    (fails : d.explore .existing links here true front = .error errno) :
    d.explore .existing links here slash (front ++ rest) = .error errno := by
  rw [explore_eq] at fails ⊢
  induction front generalizing here with
  | nil => cases fails
  | cons step front ih =>
    cases step with
    | stay => exact ih fails
    | up => exact ih fails
    | name n =>
      have later : front ++ rest ≠ [] := fun none => more (List.append_eq_nil_iff.mp none).2
      rw [exploreWith_name] at fails
      rw [List.cons_append, exploreWith_through _ _ later]
      split at fails
      · next long => rwa [if_pos long]
      · next short =>
        rw [if_neg short]
        cases entry : d.at? (n :: here) with
        | none => rwa [entry] at fails
        | some old =>
          rw [entry] at fails
          cases old with
          | dir => exact ih fails
          | file bytes executable =>
            simp only [Bool.not_true, and_false, Bool.false_eq_true, if_false] at fails
            exact fails
          | link target => exact absurd entry (linkless.at?_ne _ target)

theorem Way.found_cases (linkless : d.Linkless []) {links : Nat} {here : Loc} {slash : Bool}
    {steps : List Step} {spot : Spot} (way : d.Way .existing links here slash steps spot) :
    spot.2 = some .dir ∨ ∃ bytes executable, spot.2 = some (.file bytes executable) := by
  induction way with
  | here _ => exact .inl rfl
  | stay _ ih | up _ ih | dir _ _ _ ih => exact ih
  | file _ _ => exact .inr ⟨_, _, rfl⟩
  | free creating => cases creating
  | link _ entry _ _ _ => exact absurd entry (linkless.at?_ne _ _)

theorem found_cases (linkless : d.Linkless []) {found : Option Entry}
    (way : d.locate .existing path = .ok (loc, found)) :
    found = some .dir ∨ ∃ bytes executable, found = some (.file bytes executable) := by
  obtain ⟨r, _, way⟩ := way_of_locate way
  exact way.found_cases linkless

/-- What is wrong with the last step of a path that leads to nothing. -/
inductive Lacks (d : Disk) : Place → IoError → Prop
  | long {dir : Loc} {m : String} {slash : Bool} : Route.maxName < m.utf8ByteSize →
      Lacks d ⟨dir, some m, slash⟩ (.system Errno.nameTooLong)
  | entry {dir : Loc} {m : String} {slash : Bool} : ¬ Route.maxName < m.utf8ByteSize →
      d.at? (m :: dir) = none → Lacks d ⟨dir, some m, slash⟩ (.system Errno.noEntry)
  | directory {dir : Loc} {m : String} {bytes : ByteArray} {executable : Bool} :
      ¬ Route.maxName < m.utf8ByteSize → d.at? (m :: dir) = some (.file bytes executable) →
        Lacks d ⟨dir, some m, true⟩ (.system Errno.notDirectory)

theorem lacks_of_explore (linkless : d.Linkless []) {links : Nat} {dir : Loc} {slash : Bool}
    {m : String} {errno : Int}
    (lost : d.explore .existing links dir slash [.name m] = .error errno) :
    d.Lacks ⟨dir, some m, slash⟩ (.system errno) := by
  rw [explore_eq, exploreWith_name] at lost
  split at lost
  · next long =>
    cases lost
    exact .long long
  · next short =>
    cases entry : d.at? (m :: dir) with
    | none =>
      rw [entry] at lost
      cases lost
      exact .entry short entry
    | some old =>
      rw [entry] at lost
      cases old with
      | dir => cases lost
      | file bytes executable =>
        cases slash with
        | false => cases lost
        | true =>
          cases lost
          exact .directory short entry
      | link target => exact absurd entry (linkless.at?_ne _ target)

theorem lost_cases {cause : IoError} (linkless : d.Linkless [])
    (lost : d.locate .existing source = .error cause) :
    d.place source = .error cause ∨ ∃ place, d.place source = .ok place ∧ d.Lacks place cause := by
  unfold locate at lost
  unfold Disk.place
  cases read : Route.read source with
  | error unread =>
    rw [read] at lost
    cases lost
    exact .inl rfl
  | ok route =>
    simp only [read] at lost ⊢
    rcases List.eq_nil_or_concat route.steps with none | ⟨front, last, split⟩
    · rw [none, explore_eq] at lost
      cases lost
    rw [List.concat_eq_append] at split
    rw [split] at lost ⊢
    rw [List.dropLast_concat, List.getLast?_concat]
    have more := List.cons_ne_nil last []
    -- the way to the last step is taken alike, and what happens there is left to compare
    cases cut : d.explore .existing Route.maxLinks (d.start route) true front with
    | error errno =>
      rw [explore_cut_error linkless more cut] at lost
      cases lost
      exact .inl rfl
    | ok spot =>
      obtain ⟨dir, found⟩ := spot
      obtain rfl := (way_of_explore cut).found.resolve_right fun no => Bool.noConfusion no.1
      obtain ⟨left, goesOn⟩ := explore_append cut
      rw [goesOn _ _ _ more] at lost
      cases last with
      | stay | up =>
        rw [explore_eq] at lost
        cases lost
      | name m =>
        cases way : d.explore .existing left dir route.slash [.name m] with
        | ok spot => rw [way] at lost; cases lost
        | error errno =>
          rw [way] at lost
          cases lost
          exact .inr ⟨_, rfl, lacks_of_explore linkless way⟩

namespace Landing

variable {r : Route} {base : Loc} {outer : List String} {n : String} {cause : IoError}
  (landing : d.Landing r base path outer n) (based : d.Based r base) (linkless : d.Linkless [])
  (lost : d.locate .existing source = .error cause)
include lost

omit landing based linkless in
theorem copy_lost : d.copy source path = (d, .error cause) := by
  simp only [Disk.copy, lost]

include landing based linkless

theorem rename_lost : d.rename source path = (d, .error cause) := by
  have place := landing.place_eq based
  have passable := Based.passable_of_read landing.names.read
  unfold Disk.rename passage
  by_cases bad : Route.isUnpassable source = true
  · simp only [locate, Route.read, bad, if_true] at lost
    cases lost
    rw [bad, Bool.true_or, if_pos rfl]
  · simp only [bad, passable, Bool.or_self, Bool.false_eq_true, if_false]
    rcases lost_cases linkless lost with unplaced | ⟨origin, placed, lacks⟩
    · rw [unplaced]
    · rw [placed, place]
      cases lacks with
      | long long => simp only [checkName, long, if_true]
      | entry short none => simp only [checkName, short, if_false, none]
      | directory short file =>
        simp only [checkName, short, landing.short, if_false, file, renameFault, Entry.isDir,
          Bool.not_false, Bool.true_or, Bool.and_self, if_true]

end Landing

end Spool.Disk
