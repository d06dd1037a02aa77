import Spool.Disk.Call
import Spool.Proofs.Disk.Route
import Spool.Proofs.Disk.Ways

/-!
Where paths lead on a disk. What lies on a way keeps the way open; a way can be cut at any directory
on it; and below a directory that holds no links a way simply goes down.
-/

namespace Spool.Disk

variable {d e : Disk} {aim : Aim} {links : Nat} {here base : Loc} {slash : Bool}
  {outer : List String}

theorem exploreWith_name (follow : String → Loc → Bool → List Step → Except Int Spot) (n : String)
    (rest : List Step) : d.exploreWith .existing follow here slash (.name n :: rest) =
      if Route.maxName < n.utf8ByteSize then .error Errno.nameTooLong
      else
        match d.at? (n :: here) with
        | none => .error Errno.noEntry
        | some .dir => d.exploreWith .existing follow (n :: here) slash rest
        | some (.file bytes executable) =>
          if rest = [] ∧ !slash then .ok (n :: here, some (.file bytes executable))
          else .error Errno.notDirectory
        | some (.link target) => follow target here slash rest := by
  rw [exploreWith, if_neg (by simp)]
  cases d.at? (n :: here) with
  | none => simp only [reduceCtorEq, false_and, if_false]
  | some entry => cases entry <;> rfl

theorem exploreWith_through (follow : String → Loc → Bool → List Step → Except Int Spot)
    (n : String) {rest : List Step} (more : rest ≠ []) :
    d.exploreWith aim follow here slash (.name n :: rest) =
      if Route.maxName < n.utf8ByteSize then .error Errno.nameTooLong
      else
        match d.at? (n :: here) with
        | none => .error Errno.noEntry
        | some .dir => d.exploreWith aim follow (n :: here) slash rest
        | some (.file _ _) => .error Errno.notDirectory
        | some (.link target) => follow target here slash rest := by
  rw [exploreWith, if_neg (by simp [more])]
  cases d.at? (n :: here) with
  | none => simp only [more, and_false, if_false]
  | some entry =>
    cases entry with
    | file bytes executable => simp only [more, false_and, if_false]
    | dir | link => rfl

theorem Way.cut {front rest : List Step} {spot : Spot} (more : rest ≠ [])
    (way : d.Way aim links here slash (front ++ rest) spot) :
    ∃ dir, d.Way .existing links here true front (dir, some .dir) := by
  generalize same : front ++ rest = steps at way
  induction way generalizing front with
  | here _ => exact absurd (List.append_eq_nil_iff.mp same).2 more
  | stay _ ih =>
    obtain ⟨rfl, _⟩ | ⟨front, rfl, rfl⟩ := List.append_eq_cons_iff.mp same
    · exact ⟨_, .here rfl⟩
    · exact (ih rfl).imp fun _ cut => .stay cut
  | up _ ih =>
    obtain ⟨rfl, _⟩ | ⟨front, rfl, rfl⟩ := List.append_eq_cons_iff.mp same
    · exact ⟨_, .here rfl⟩
    · exact (ih rfl).imp fun _ cut => .up cut
  | dir short entry _ ih =>
    obtain ⟨rfl, _⟩ | ⟨front, rfl, rfl⟩ := List.append_eq_cons_iff.mp same
    · exact ⟨_, .here rfl⟩
    · exact (ih rfl).imp fun _ cut => .dir short entry cut
  | file | free =>
    obtain ⟨rfl, _⟩ | ⟨front, rfl, last⟩ := List.append_eq_cons_iff.mp same
    · exact ⟨_, .here rfl⟩
    · exact absurd (List.append_eq_nil_iff.mp last.symm).2 more
  | link short entry _ _ ih =>
    obtain ⟨rfl, _⟩ | ⟨front, rfl, rfl⟩ := List.append_eq_cons_iff.mp same
    · exact ⟨_, .here rfl⟩
    · exact (ih (List.append_assoc ..)).imp fun _ cut => .link short entry nofun cut

theorem explore_cut {front rest : List Step} {spot : Spot} (more : rest ≠ [])
    (way : d.explore aim links here slash (front ++ rest) = .ok spot) :
    ∃ dir, d.explore .existing links here true front = .ok (dir, some .dir) :=
  (Way.cut more (way_of_explore way)).imp fun _ cut => cut.explore

theorem Way.unique {more : Nat} {other : Bool} {steps : List Step} {spot spot' : Spot}
    (way : d.Way .existing links here slash steps spot)
    (way' : d.explore .existing more here other steps = .ok spot') : spot = spot' := by
  induction way generalizing more other with
  | here _ =>
    rw [explore_eq] at way'
    exact Except.ok.inj way'
  | stay _ ih => exact ih (explore_stay ▸ way')
  | up _ ih => exact ih (explore_up ▸ way')
  | dir short entry _ ih => exact ih (explore_dir short entry ▸ way')
  | file short entry =>
    rw [explore_eq, exploreWith_name, if_neg short, entry] at way'
    dsimp only at way'
    split at way'
    · exact Except.ok.inj way'
    · cases way'
  | free creating => cases creating
  | link short entry _ _ ih =>
    rw [explore_link short entry fun creating => by cases creating] at way'
    cases more with
    | zero => cases way'
    | succ more => exact ih way'

/-- However many links may be followed, and whether or not a slash ends it, a path leads to one thing
only. -/
theorem explore_unique {more : Nat} {other : Bool} {steps : List Step} {spot spot' : Spot}
    (way : d.explore .existing links here slash steps = .ok spot)
    (way' : d.explore .existing more here other steps = .ok spot') : spot = spot' :=
  (way_of_explore way).unique way'

/-- The name at a location is that of the file at the other, or of a link that leads there. -/
def Denotes (d : Disk) (own loc : Loc) : Prop :=
  ∃ n dir links bytes executable, own = n :: dir ∧
    d.explore .existing links dir false [.name n] = .ok (loc, some (.file bytes executable))

/-- Directories and links are still there, but for some that were lost. -/
structure Keeps (d e : Disk) (lost : Loc → Prop) : Prop where
  here : e.here = d.here
  ways : ∀ loc entry, ¬ lost loc → d.at? loc = some entry →
    (∀ bytes executable, entry ≠ .file bytes executable) → e.at? loc = some entry

theorem Way.not_lost {lost : Loc → Prop} {n : String} {rest : List Step} {spot : Spot}
    (ends : ∀ own, lost own → ∃ other, d.Denotes own other ∧ (spot.2 = some .dir ∨ other ≠ spot.1))
    (way : d.Way .existing links here slash (.name n :: rest) spot) : ¬ lost (n :: here) := by
  intro own
  obtain ⟨other, ⟨m, dir, left, bytes, executable, same, leads⟩, apart⟩ := ends _ own
  cases same
  by_cases last : rest = []
  · subst last
    cases way.unique leads
    exact apart.elim (by simp) fun apart => apart rfl
  · rw [← List.singleton_append] at way
    obtain ⟨dir, cut⟩ := way.cut last
    cases cut.unique leads

theorem Way.keep {lost : Loc → Prop} (keeps : d.Keeps e lost) {steps : List Step} {spot : Spot}
    (ends : ∀ own, lost own → ∃ other, d.Denotes own other ∧ (spot.2 = some .dir ∨ other ≠ spot.1))
    (way : d.Way .existing links here slash steps spot)
    (there : spot.2 = some .dir ∨ e.at? spot.1 = d.at? spot.1) :
    e.Way .existing links here slash steps spot := by
  induction way with
  | here _ => exact .here rfl
  | stay _ ih => exact .stay (ih ends there)
  | up _ ih => exact .up (ih ends there)
  | dir short entry way ih =>
    have spared := (Way.dir short entry way).not_lost ends
    exact .dir short (keeps.ways _ _ spared entry fun _ _ => by simp) (ih ends there)
  | file short entry => exact .file short ((there.resolve_left (by simp)).trans entry)
  | free creating => cases creating
  | link short entry last way ih =>
    have spared := (Way.link short entry last way).not_lost ends
    exact .link short (keeps.ways _ _ spared entry fun _ _ => by simp) last (ih ends there)

/-- A way stays open while what lies on it is kept, and only links to other files are lost. -/
theorem explore_of_keeps {lost : Loc → Prop} (keeps : d.Keeps e lost) {steps : List Step}
    {loc : Loc} {found : Option Entry}
    (ends : ∀ own, lost own → ∃ other, d.Denotes own other ∧ (found = some .dir ∨ other ≠ loc))
    (way : d.explore .existing links here slash steps = .ok (loc, found))
    (there : found = some .dir ∨ e.at? loc = d.at? loc) :
    e.explore .existing links here slash steps = .ok (loc, found) :=
  ((way_of_explore way).keep keeps ends there).explore

theorem explore_slash {steps : List Step} {loc : Loc}
    (way : d.explore .existing links here slash steps = .ok (loc, some .dir)) (other : Bool) :
    d.explore .existing links here other steps = .ok (loc, some .dir) := by
  replace way := way_of_explore way
  refine Way.explore ?_
  generalize same : (loc, some Entry.dir) = spot at way
  induction way generalizing other with
  | here _ => exact .here rfl
  | stay _ ih => exact .stay (ih other same)
  | up _ ih => exact .up (ih other same)
  | dir short entry _ ih => exact .dir short entry (ih other same)
  | file | free => cases same
  | link short entry _ _ ih => exact .link short entry nofun (ih _ same)

/-- Below a directory that holds no links, at whatever depth, a way goes down step by step. -/
def descend (d : Disk) : Loc → List String → Except Int Loc
  | here, [] => .ok here
  | here, n :: names =>
    if Route.maxName < n.utf8ByteSize then .error Errno.nameTooLong
    else
      match d.at? (n :: here) with
      | none => .error Errno.noEntry
      | some .dir => d.descend (n :: here) names
      | some _ => .error Errno.notDirectory

/-- Where names lead from a base, the outermost name first. -/
def under (base : Loc) (names : List String) : Loc :=
  names.reverse ++ base

theorem under_concat (base : Loc) (outer : List String) (n : String) :
    under base (outer ++ [n]) = n :: under base outer := by
  simp only [under, List.reverse_append, List.reverse_singleton, List.cons_append, List.nil_append]

theorem under_append (base : Loc) (outer inner : List String) :
    under base (outer ++ inner) = under (under base outer) inner := by
  simp only [under, List.reverse_append, List.append_assoc]

theorem under_inj {base : Loc} {names others : List String} :
    under base names = under base others ↔ names = others := by
  constructor
  · intro same
    exact List.reverse_inj.mp (List.append_cancel_right same)
  · exact congrArg _

theorem descend_append (d : Disk) (here : Loc) (front back : List String) :
    d.descend here (front ++ back) =
      match d.descend here front with
      | .error errno => .error errno
      | .ok loc => d.descend loc back := by
  induction front generalizing here with
  | nil => rfl
  | cons n front ih =>
    simp only [List.cons_append, descend]
    split
    · rfl
    · cases d.at? (n :: here) with
      | none => rfl
      | some old =>
        cases old with
        | dir => exact ih (n :: here)
        | file _ _ | link _ => rfl

theorem descend_eq_ok {names : List String} {loc : Loc} (through : d.descend here names = .ok loc) :
    loc = under here names := by
  induction names generalizing here with
  | nil => cases through; rfl
  | cons n names ih =>
    simp only [descend] at through
    split at through
    · cases through
    · split at through
      · cases through
      · rw [ih through]
        exact (under_append here [n] names).symm
      · cases through

/-- Why a way down ends too early. -/
inductive Dead (d : Disk) (base : Loc) (n : String) (front : List String) : Int → Prop
  | long : Route.maxName < n.utf8ByteSize → Dead d base n front Errno.nameTooLong
  | missing : ¬ Route.maxName < n.utf8ByteSize → d.at? (under base (front ++ [n])) = none →
      Dead d base n front Errno.noEntry
  | barred {entry : Entry} : ¬ Route.maxName < n.utf8ByteSize →
      d.at? (under base (front ++ [n])) = some entry → entry ≠ .dir →
      Dead d base n front Errno.notDirectory

theorem descend_eq_error {names : List String} {errno : Int}
    (fails : d.descend base names = .error errno) : ∃ front n back, names = front ++ n :: back ∧
      d.descend base front = .ok (under base front) ∧ d.Dead base n front errno := by
  induction names generalizing base with
  | nil => cases fails
  | cons n names ih =>
    simp only [descend] at fails
    split at fails
    · next long =>
      cases fails
      exact ⟨[], n, names, rfl, rfl, .long long⟩
    · next short =>
      split at fails
      · next none =>
        cases fails
        exact ⟨[], n, names, rfl, rfl, .missing short none⟩
      · next dir =>
        obtain ⟨front, m, back, split, through, dead⟩ := ih fails
        refine ⟨n :: front, m, back, by rw [split]; rfl, ?_, ?_⟩
        · simp only [descend, short, if_false, dir, through]
          exact congrArg _ (under_append base [n] front).symm
        · have same : under (n :: base) (front ++ [m]) = under base (n :: front ++ [m]) :=
            (under_append base [n] (front ++ [m])).symm
          cases dead with
          | long long => exact .long long
          | missing short none => exact .missing short (same ▸ none)
          | barred short there other => exact .barred short (same ▸ there) other
      · next entry other there =>
        cases fails
        exact ⟨[], n, names, rfl, rfl, .barred short there other⟩

theorem isDir_of_descend {names front : List String} {n : String} {loc : Loc}
    (through : d.descend base names = .ok loc) (isFront : front ++ [n] <+: names) :
    ¬ Route.maxName < n.utf8ByteSize ∧ d.at? (under base (front ++ [n])) = some .dir ∧
      d.descend base (front ++ [n]) = .ok (under base (front ++ [n])) := by
  obtain ⟨back, rfl⟩ := isFront
  rw [descend_append] at through
  cases first : d.descend base (front ++ [n]) with
  | error errno => rw [first] at through; cases through
  | ok here =>
    have same := descend_eq_ok first
    subst same
    refine ⟨?_, ?_, rfl⟩ <;> rw [descend_append] at first
    · cases before : d.descend base front with
      | error errno => rw [before] at first; cases first
      | ok dir =>
        rw [before] at first
        simp only [descend] at first
        split at first
        · cases first
        · next short => exact short
    · cases before : d.descend base front with
      | error errno => rw [before] at first; cases first
      | ok dir =>
        rw [before] at first
        rw [under_concat, ← descend_eq_ok before]
        simp only [descend] at first
        split at first
        · cases first
        · split at first
          · cases first
          · next there => exact there
          · cases first

/-- No links lie below the location. -/
def Linkless (d : Disk) (base : Loc) : Prop :=
  ∀ names target, d.at? (names ++ base) ≠ some (.link target)

theorem Linkless.down {n : String} (linkless : d.Linkless base) : d.Linkless (n :: base) := by
  intro names target
  have below := linkless (names ++ [n]) target
  rwa [List.append_assoc] at below

theorem explore_spells (linkless : d.Linkless here) {steps : List Step} {names : List String}
    (spells : Route.Spells steps names) :
    d.explore .existing links here true steps =
      (d.descend here names).map fun loc => (loc, some .dir) := by
  rw [explore_eq]
  induction spells generalizing here with
  | nil => rfl
  | stay _ ih => exact ih linkless
  | @name n steps names _ ih =>
    rw [exploreWith_name, descend]
    split
    · rfl
    · cases entry : d.at? (n :: here) with
      | none => rfl
      | some old =>
        cases old with
        | dir => exact ih linkless.down
        | file bytes executable => simp [Except.map]
        | link target => exact absurd entry (linkless [n] target)

theorem explore_append {front : List Step}
    (way : d.explore .existing links here true front = .ok (base, some .dir)) :
    ∃ left, ∀ aim slash steps, steps ≠ [] →
      d.explore aim links here slash (front ++ steps) = d.explore aim left base slash steps := by
  replace way := way_of_explore way
  generalize same : (base, some Entry.dir) = spot at way
  generalize true = slash at way
  induction way with
  | here _ =>
    cases same
    exact ⟨_, fun _ _ _ _ => rfl⟩
  | stay _ ih =>
    obtain ⟨left, goesOn⟩ := ih same
    exact ⟨left, fun aim slash steps some => explore_stay.trans (goesOn aim slash steps some)⟩
  | up _ ih =>
    obtain ⟨left, goesOn⟩ := ih same
    exact ⟨left, fun aim slash steps some => explore_up.trans (goesOn aim slash steps some)⟩
  | dir short entry _ ih =>
    obtain ⟨left, goesOn⟩ := ih same
    exact ⟨left, fun aim slash steps some =>
      (explore_dir short entry).trans (goesOn aim slash steps some)⟩
  | file | free => cases same
  | @link _ _ _ _ _ rest _ short entry _ _ ih =>
    obtain ⟨left, goesOn⟩ := ih same
    refine ⟨left, fun aim slash steps some => ?_⟩
    have more : rest ++ steps ≠ [] := fun none => some (List.append_eq_nil_iff.mp none).2
    rw [← goesOn aim slash steps some, List.cons_append,
      explore_link short entry fun _ none => absurd none more]
    simp only [behind, List.isEmpty_eq_false_iff.mpr more, Bool.false_and, Bool.or_false,
      List.append_assoc]

theorem place_of_found {path : String} {spot : Spot} (found : d.locate aim path = .ok spot)
    (other : spot.2 ≠ some .dir) : ∃ n dir left slash, d.place path = .ok ⟨dir, some n, slash⟩ ∧
      d.Way aim left dir slash [.name n] spot := by
  obtain ⟨r, read, way⟩ := way_of_locate found
  rcases List.eq_nil_or_concat r.steps with none | ⟨front, last, split⟩
  · rw [none] at way
    cases way.eq_here
    exact absurd rfl other
  · rw [List.concat_eq_append] at split
    rw [split] at way
    obtain ⟨dir, cut⟩ := way.cut (List.cons_ne_nil last [])
    obtain ⟨left, goesOn⟩ := explore_append cut.explore
    have ends := way_of_explore ((goesOn _ _ _ (List.cons_ne_nil last [])).symm.trans way.explore)
    cases last with
    | stay =>
      cases (way_stay.mp ends).eq_here
      exact absurd rfl other
    | up =>
      cases (way_up.mp ends).eq_here
      exact absurd rfl other
    | name n => exact ⟨n, dir, left, r.slash, place_of_way read split cut, ends⟩

end Spool.Disk
