import Spool.Disk.Route

/-!
The ways by which paths are found, as a relation. Exploring succeeds with what a way leads to and with
nothing else, so what holds of all that is found is proved by induction on ways.
-/

namespace Spool.Disk

variable {d : Disk} {aim : Aim} {links : Nat} {here : Loc} {slash : Bool} {n : String}
  {rest : List Step} {bytes : ByteArray} {executable : Bool} {target : String}

/-- How exploring goes on behind a link, with so many links left to follow. -/
def behind (d : Disk) (aim : Aim) : Nat → String → Loc → Bool → List Step → Except Int Spot
  | 0, _, _, _, _ => .error Errno.tooManyLinks
  | links + 1, target, here, slash, rest =>
    d.explore aim links (if (Route.ofText target.toList).absolute then [] else here)
      (slash || rest.isEmpty && (Route.ofText target.toList).slash)
      ((Route.ofText target.toList).steps ++ rest)

theorem explore_eq (d : Disk) (aim : Aim) (links : Nat) :
    d.explore aim links = d.exploreWith aim (d.behind aim links) := by
  cases links with
  | zero => rfl
  | succ links => rfl

theorem explore_stay : d.explore aim links here slash (.stay :: rest) =
    d.explore aim links here slash rest := by
  rw [explore_eq]
  rfl

theorem explore_up : d.explore aim links here slash (.up :: rest) =
    d.explore aim links here.tail slash rest := by
  rw [explore_eq]
  rfl

section Name

variable (short : ¬ Route.maxName < n.utf8ByteSize)
include short

theorem explore_dir (entry : d.at? (n :: here) = some .dir) :
    d.explore aim links here slash (.name n :: rest) =
      d.explore aim links (n :: here) slash rest := by
  rw [explore_eq]
  by_cases last : aim = .creating ∧ rest = [] ∧ slash
  · obtain ⟨rfl, rfl, rfl⟩ := last
    rfl
  · simp only [exploreWith, last, short, entry, if_false]

theorem explore_file (entry : d.at? (n :: here) = some (.file bytes executable)) :
    d.explore aim links here false [.name n] = .ok (n :: here, some (.file bytes executable)) := by
  rw [explore_eq]
  simp [exploreWith, short, entry]

theorem explore_free (entry : d.at? (n :: here) = none) :
    d.explore .creating links here false [.name n] = .ok (n :: here, none) := by
  rw [explore_eq]
  simp [exploreWith, short, entry]

theorem explore_link (entry : d.at? (n :: here) = some (.link target))
    (open' : aim = .creating → rest = [] → slash = false) :
    d.explore aim links here slash (.name n :: rest) =
      d.behind aim links target here slash rest := by
  have more : ¬ (aim = .creating ∧ rest = [] ∧ slash = true) := fun last => by
    have bare := open' last.1 last.2.1
    rw [last.2.2] at bare
    cases bare
  rw [explore_eq]
  simp only [exploreWith, more, short, entry, if_false]

end Name

/-- The way that steps take from a directory, with so many links to follow at most, and the spot to
which it leads. -/
inductive Way (d : Disk) (aim : Aim) : Nat → Loc → Bool → List Step → Spot → Prop
  | here {links : Nat} {here : Loc} {slash : Bool} : aim = .existing →
      Way d aim links here slash [] (here, some .dir)
  | stay {links : Nat} {here : Loc} {slash : Bool} {rest : List Step} {spot : Spot} :
      Way d aim links here slash rest spot → Way d aim links here slash (.stay :: rest) spot
  | up {links : Nat} {here : Loc} {slash : Bool} {rest : List Step} {spot : Spot} :
      Way d aim links here.tail slash rest spot → Way d aim links here slash (.up :: rest) spot
  | dir {links : Nat} {here : Loc} {slash : Bool} {n : String} {rest : List Step} {spot : Spot} :
      ¬ Route.maxName < n.utf8ByteSize → d.at? (n :: here) = some .dir →
      Way d aim links (n :: here) slash rest spot →
      Way d aim links here slash (.name n :: rest) spot
  | file {links : Nat} {here : Loc} {n : String} {bytes : ByteArray} {executable : Bool} :
      ¬ Route.maxName < n.utf8ByteSize → d.at? (n :: here) = some (.file bytes executable) →
      Way d aim links here false [.name n] (n :: here, some (.file bytes executable))
  /-- A free name, where a file is to be created. -/
  | free {links : Nat} {here : Loc} {n : String} : aim = .creating →
      ¬ Route.maxName < n.utf8ByteSize → d.at? (n :: here) = none →
      Way d aim links here false [.name n] (n :: here, none)
  | link {links : Nat} {here : Loc} {slash : Bool} {n target : String} {rest : List Step}
      {spot : Spot} : ¬ Route.maxName < n.utf8ByteSize → d.at? (n :: here) = some (.link target) →
      (aim = .creating → rest = [] → slash = false) →
      Way d aim links (if (Route.ofText target.toList).absolute then [] else here)
        (slash || rest.isEmpty && (Route.ofText target.toList).slash)
        ((Route.ofText target.toList).steps ++ rest) spot →
      Way d aim (links + 1) here slash (.name n :: rest) spot

variable {steps : List Step} {spot : Spot}

theorem Way.explore (way : d.Way aim links here slash steps spot) :
    d.explore aim links here slash steps = .ok spot := by
  induction way with
  | here existing =>
    subst existing
    rw [explore_eq]
    rfl
  | stay _ ih => exact explore_stay.trans ih
  | up _ ih => exact explore_up.trans ih
  | dir short entry _ ih => exact (explore_dir short entry).trans ih
  | file short entry => exact explore_file short entry
  | free creating short entry =>
    subst creating
    exact explore_free short entry
  | link short entry last _ ih => exact (explore_link short entry last).trans ih

theorem way_of_behind (on : ∀ {here slash n target rest}, ¬ Route.maxName < n.utf8ByteSize →
      d.at? (n :: here) = some (.link target) → (aim = .creating → rest = [] → slash = false) →
      d.behind aim links target here slash rest = .ok spot →
        d.Way aim links here slash (.name n :: rest) spot)
    (found : d.explore aim links here slash steps = .ok spot) :
    d.Way aim links here slash steps spot := by
  induction steps generalizing here with
  | nil =>
    rw [explore_eq] at found
    cases aim with
    | existing =>
      cases found
      exact .here rfl
    | creating => cases found
  | cons step rest ih =>
    cases step with
    | stay => exact .stay (ih (explore_stay ▸ found))
    | up => exact .up (ih (explore_up ▸ found))
    | name n =>
      have whole := found
      rw [explore_eq] at found
      simp only [exploreWith] at found
      split at found
      · cases found
      · next plain =>
        have bare : aim = .creating → rest = [] → slash = false := fun creating last =>
          Bool.eq_false_iff.mpr fun slash => plain ⟨creating, last, slash⟩
        split at found
        · cases found
        · next short =>
          split at found
          · next entry =>
            split at found
            · next last =>
              obtain ⟨creating, rfl⟩ := last
              cases found
              cases bare creating rfl
              exact .free creating short entry
            · cases found
          · next entry => exact .dir short entry (ih (explore_dir short entry ▸ whole))
          · next entry =>
            split at found
            · next last =>
              obtain ⟨rfl, open'⟩ := last
              cases found
              cases slash with
              | false => exact .file short entry
              | true => cases open'
            · cases found
          · next entry => exact on short entry bare found

theorem way_of_explore (found : d.explore aim links here slash steps = .ok spot) :
    d.Way aim links here slash steps spot := by
  induction links generalizing here slash steps with
  | zero => exact way_of_behind (fun _ _ _ none => nomatch none) found
  | succ links ih =>
    exact way_of_behind (fun short entry bare behind => .link short entry bare (ih behind)) found

theorem way_iff : d.Way aim links here slash steps spot ↔
    d.explore aim links here slash steps = .ok spot :=
  ⟨Way.explore, way_of_explore⟩

theorem way_stay : d.Way aim links here slash (.stay :: rest) spot ↔
    d.Way aim links here slash rest spot := by
  rw [way_iff, way_iff, explore_stay]

theorem way_up : d.Way aim links here slash (.up :: rest) spot ↔
    d.Way aim links here.tail slash rest spot := by
  rw [way_iff, way_iff, explore_up]

theorem Way.eq_here (way : d.Way aim links here slash [] spot) : spot = (here, some .dir) := by
  cases way
  rfl

theorem Way.found (way : d.Way .existing links here slash steps spot) :
    spot.2 = some .dir ∨ slash = false ∧ spot.2 = d.at? spot.1 := by
  induction way with
  | here _ => exact .inl rfl
  | stay _ ih | up _ ih | dir _ _ _ ih => exact ih
  | file _ entry => exact .inr ⟨rfl, entry.symm⟩
  | free creating => cases creating
  | link _ _ _ _ ih => exact ih.imp_right (And.imp_left fun whole => (Bool.or_eq_false_iff.mp whole).1)

theorem Way.bare (way : d.Way .creating links here slash steps spot) : slash = false := by
  induction way with
  | here existing => cases existing
  | stay _ ih | up _ ih | dir _ _ _ ih => exact ih
  | file | free => rfl
  | link _ _ _ _ ih => exact (Bool.or_eq_false_iff.mp ih).1

section Path

variable {path : String} {r : Route}

theorem locate_of_way (read : Route.read path = .ok r)
    (way : d.Way aim Route.maxLinks (d.start r) r.slash r.steps spot) :
    d.locate aim path = .ok spot := by
  simp only [locate, read, way.explore, report]

theorem way_of_locate (found : d.locate aim path = .ok spot) : ∃ r, Route.read path = .ok r ∧
    d.Way aim Route.maxLinks (d.start r) r.slash r.steps spot := by
  unfold locate at found
  cases read : Route.read path with
  | error cause => rw [read] at found; cases found
  | ok r =>
    simp only [read] at found
    cases explored : d.explore aim Route.maxLinks (d.start r) r.slash r.steps with
    | error errno => rw [explored] at found; cases found
    | ok spot =>
      rw [explored] at found
      cases found
      exact ⟨r, rfl, way_of_explore explored⟩

theorem way_of_place {place : Place} (there : d.place path = .ok place) :
    ∃ r, Route.read path = .ok r ∧ r.slash = place.slash ∧
      (∀ n, place.name = some n → r.steps = r.steps.dropLast ++ [.name n]) ∧
      d.Way .existing Route.maxLinks (d.start r) true r.steps.dropLast (place.dir, some .dir) := by
  unfold Disk.place at there
  cases read : Route.read path with
  | error cause => rw [read] at there; cases there
  | ok r =>
    simp only [read] at there
    cases explored : d.explore .existing Route.maxLinks (d.start r) true r.steps.dropLast with
    | error errno => rw [explored] at there; cases there
    | ok spot =>
      obtain ⟨dir, found⟩ := spot
      have way := way_of_explore explored
      obtain rfl := way.found.resolve_right fun cut => Bool.noConfusion cut.1
      simp only [explored] at there
      split at there
      · next n last =>
        cases there
        refine ⟨r, rfl, rfl, fun m named => ?_, way⟩
        cases named
        obtain ⟨front, split⟩ := List.getLast?_eq_some_iff.mp last
        rw [split, List.dropLast_concat]
      · cases there
        exact ⟨r, rfl, rfl, nofun, way⟩

theorem place_of_way {front : List Step} {dir : Loc} (read : Route.read path = .ok r)
    (split : r.steps = front ++ [.name n])
    (way : d.Way .existing Route.maxLinks (d.start r) true front (dir, some .dir)) :
    d.place path = .ok ⟨dir, some n, r.slash⟩ := by
  simp only [Disk.place, read, split, List.dropLast_concat, way.explore, List.getLast?_concat]

end Path

end Spool.Disk
