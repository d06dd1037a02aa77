import Spool.Proofs.Disk.Sources
import Spool.Proofs.Disk.Spares

/-!
Making directories wherever a path leads. Directories are all that comes, each of them in another
one; and when the call succeeds, the path leads to a directory.
-/

namespace Spool.Disk

variable {d e : Disk} {path : String}

/-- All that has changed is that directories came where nothing was, each of them in a directory. -/
structure Grows (d e : Disk) : Prop where
  here : e.here = d.here
  kept : ∀ loc entry, d.at? loc = some entry → e.at? loc = some entry
  fresh : ∀ loc, d.at? loc = none → e.at? loc = none ∨ e.at? loc = some .dir
  parents : ∀ n dir, d.at? (n :: dir) = none → e.at? (n :: dir) ≠ none → e.at? dir = some .dir

namespace Grows

theorem refl (d : Disk) : d.Grows d :=
  ⟨rfl, fun _ _ there => there, fun _ none => .inl none, fun _ _ none there => absurd none there⟩

theorem trans {f : Disk} (first : d.Grows e) (second : e.Grows f) : d.Grows f := by
  refine ⟨second.here.trans first.here,
    fun loc entry there => second.kept loc entry (first.kept loc entry there), fun loc none => ?_,
    fun n dir none there => ?_⟩
  · rcases first.fresh loc none with still | made
    · exact second.fresh loc still
    · exact .inr (second.kept loc .dir made)
  · by_cases between : e.at? (n :: dir) = .none
    · exact second.parents n dir between there
    · exact second.kept dir .dir (first.parents n dir none between)

theorem steady (grows : d.Grows e) : d.Steady e := by
  refine ⟨grows.here, fun loc => grows.kept loc .dir, fun loc target => ?_, grows.parents⟩
  refine ⟨fun there => ?_, grows.kept loc _⟩
  cases before : d.at? loc with
  | none =>
    rcases grows.fresh loc before with still | made
    · rw [still] at there
      cases there
    · rw [made] at there
      cases there
  | some entry => exact (grows.kept loc entry before).symm.trans there

theorem spares (grows : d.Grows e) (touched : Loc → Prop) : d.Spares e touched :=
  ⟨grows.steady, fun loc _ _ _ => grows.kept loc _⟩

theorem file_before {loc : Loc} {bytes : ByteArray} {executable : Bool} (grows : d.Grows e)
    (there : e.at? loc = some (.file bytes executable)) :
    d.at? loc = some (.file bytes executable) := by
  cases before : d.at? loc with
  | none =>
    rcases grows.fresh loc before with still | made
    · rw [still] at there
      cases there
    · rw [made] at there
      cases there
  | some entry => exact (grows.kept loc entry before).symm.trans there

end Grows

theorem grows_put_dir {n : String} {dir : Loc} (inside : d.at? dir = some .dir)
    (free : d.at? (n :: dir) = none) : d.Grows (d.put (n :: dir) .dir) := by
  have kept : ∀ loc entry, d.at? loc = some entry →
      (d.put (n :: dir) .dir).at? loc = some entry := by
    intro loc entry there
    refine (at?_put_of_ne d .dir fun same => ?_).trans there
    rw [same, free] at there
    cases there
  refine ⟨rfl, kept, fun loc none => ?_, fun m other none there => ?_⟩
  · by_cases same : loc = n :: dir
    · rw [same, at?_put_self]
      exact .inr rfl
    · exact .inl ((at?_put_of_ne d .dir same).trans none)
  · by_cases same : m :: other = n :: dir
    · cases same
      exact kept dir .dir inside
    · exact absurd none ((at?_put_of_ne d .dir same).symm ▸ there)

theorem Formed.isDir_of_place (formed : d.Formed) {place : Place} (there : d.place path = .ok place) :
    d.at? place.dir = some .dir := by
  obtain ⟨r, _, _, _, way⟩ := way_of_place there
  exact formed.isDir_of_way (formed.start r) way rfl

theorem makeDir_cases (d : Disk) (path : String) :
    (∃ cause, d.makeDir path = (d, .error cause)) ∨ ∃ dir n slash,
      d.place path = .ok ⟨dir, some n, slash⟩ ∧ ¬ Route.maxName < n.utf8ByteSize ∧
        d.at? (n :: dir) = none ∧ d.makeDir path = (d.put (n :: dir) .dir, .ok ()) := by
  unfold makeDir
  split
  · exact .inl ⟨_, rfl⟩
  · exact .inl ⟨_, rfl⟩
  · next dir n slash there =>
    by_cases long : Route.maxName < n.utf8ByteSize
    · exact .inl ⟨.system Errno.nameTooLong, by simp only [checkName, long, if_true]⟩
    · simp only [checkName, if_neg long]
      cases found : d.at? (n :: dir) with
      | none => exact .inr ⟨dir, n, slash, there, long, found, rfl⟩
      | some => exact .inl ⟨_, rfl⟩

theorem orPresent_cases (d : Disk) (path : String) (made : Disk × Reply Unit) :
    d.orPresent path made = made ∨ d.orPresent path made = (d, .ok ()) ∧ d.isDir path = true := by
  unfold orPresent
  split
  · split
    · next there => exact .inr ⟨rfl, there.2⟩
    · exact .inl rfl
  · exact .inl rfl

theorem makeDir_grows (formed : d.Formed) (path : String) :
    d.Grows (d.orPresent path (d.makeDir path)).1 := by
  rcases orPresent_cases d path (d.makeDir path) with same | ⟨same, _⟩
  · rw [same]
    rcases makeDir_cases d path with ⟨_, none⟩ | ⟨dir, n, slash, there, _, free, made⟩
    · rw [none]
      exact .refl d
    · rw [made]
      exact grows_put_dir (formed.isDir_of_place there) free
  · rw [same]
    exact .refl d

theorem makeDirsFrom_grows (formed : d.Formed) (fuel : Nat) (path : String) :
    d.Grows (d.makeDirsFrom fuel path).1 := by
  induction fuel generalizing path with
  | zero => exact .refl d
  | succ fuel ih =>
    have last := makeDir_grows formed path
    simp only [makeDirsFrom]
    split
    · exact .refl d
    · next parent _ =>
      generalize d.orPresent path (d.makeDir path) = made at last
      split
      · split
        · have around := ih parent
          generalize d.makeDirsFrom fuel parent = outer at around
          obtain ⟨e, reply⟩ := outer
          cases reply with
          | error cause => exact around
          | ok _ => exact around.trans (makeDir_grows (around.steady.formed formed) path)
        · exact .refl d
      · exact last

theorem makeDirs_grows (formed : d.Formed) (path : String) : d.Grows (d.makeDirs path).1 :=
  makeDirsFrom_grows formed _ path

/-- Makes the directory around a path, if the path has one. -/
def makeAround (d : Disk) (path : String) : Disk × Reply Unit :=
  match Path.parent? path with
  | none => (d, .ok ())
  | some parent => d.makeDirs parent

theorem makeAround_grows (formed : d.Formed) (path : String) : d.Grows (d.makeAround path).1 := by
  unfold makeAround
  split
  · exact .refl d
  · next parent _ => exact makeDirs_grows formed parent

theorem makeDirs_spares (formed : d.Formed) (path : String) (touched : Loc → Prop) :
    d.Spares (d.makeDirs path).1 touched :=
  (makeDirs_grows formed path).spares touched

theorem leadsTo_of_made (formed : d.Formed)
    (made : d.orPresent path (d.makeDir path) = (e, .ok ())) : ∃ top, e.LeadsTo path top := by
  have steady := (makeDir_grows formed path).steady
  rw [made] at steady
  rcases orPresent_cases d path (d.makeDir path) with same | ⟨same, isDir⟩
  · rcases makeDir_cases d path with ⟨_, none⟩ | ⟨dir, n, slash, there, short, _, puts⟩
    · rw [same, none] at made
      cases made
    · rw [same, puts] at made
      cases made
      obtain ⟨r, read, _, last, way⟩ := way_of_place there
      cases read_eq_ofText read
      have again := way.keep (steady.keeps fun _ => False) (fun _ => False.elim) (.inl rfl)
      obtain ⟨left, goesOn⟩ := explore_append again.explore
      refine ⟨n :: dir, ?_⟩
      rw [LeadsTo, last n rfl, show Disk.start (d.put (n :: dir) .dir) _ = d.start _ from rfl,
        goesOn _ _ _ (List.cons_ne_nil _ _), explore_dir short (at?_put_self d _)]
      exact Way.explore (.here rfl)
  · rw [same] at made
    cases made
    exact leadsTo_of_isDir isDir

theorem explore_stays (d : Disk) (here : Loc) (links k : Nat) :
    d.explore .existing links here true (List.replicate k .stay) = .ok (here, some .dir) := by
  rw [explore_eq]
  induction k with
  | zero => rfl
  | succ k ih => exact ih

theorem leadsTo_of_parent?_none (none : Path.parent? path = none) : ∃ top, d.LeadsTo path top := by
  have idle : Path.Pieces.dropIdle (Path.Pieces.ofText path.toList).absolute
      (Path.Pieces.ofText path.toList).pieces = [] := by
    unfold Path.parent? at none
    dsimp only at none
    split at none
    · assumption
    · cases none
  obtain ⟨pieces, split, all⟩ := Route.dropIdle_split (Path.Pieces.ofText path.toList).absolute
    (Path.Pieces.ofText path.toList).pieces
  rw [idle, List.append_nil] at split
  obtain ⟨k, stays⟩ := Route.steps_idle pieces.reverse fun piece member =>
    all piece (List.mem_reverse.mp member)
  refine ⟨d.start (Route.ofText path.toList), ?_⟩
  rw [LeadsTo, Route.steps_pieces, split, stays]
  exact explore_stays d _ _ k

theorem leadsTo_of_makeDirs (formed : d.Formed) (made : d.makeDirs path = (e, .ok ())) :
    ∃ top, e.LeadsTo path top := by
  unfold makeDirs at made
  simp only [makeDirsFrom] at made
  split at made
  · next none => exact leadsTo_of_parent?_none none
  · next parent _ =>
    split at made
    · split at made
      · have around := makeDirsFrom_grows formed path.toList.length parent
        generalize d.makeDirsFrom path.toList.length parent = outer at around made
        obtain ⟨f, reply⟩ := outer
        cases reply with
        | error cause => cases made
        | ok _ => exact leadsTo_of_made (around.steady.formed formed) made
      · cases made
    · exact leadsTo_of_made formed made

end Spool.Disk
