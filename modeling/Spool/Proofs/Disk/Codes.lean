import Spool.Proofs.Disk.Explore
import Spool.Push.Program

/-!
Why calls of a disk fail. No call fails with the error number that stands for success.
-/

namespace Spool

/-- The error is none that the system calls success. -/
def IoError.Coded (e : IoError) : Prop :=
  e ≠ .system 0

theorem IoError.coded_system {errno : Int} (failed : errno ≠ 0) : (system errno).Coded :=
  fun same => failed (IoError.system.inj same)

theorem IoError.coded_other (reason : String) : (other reason).Coded := by
  intro same
  cases same

theorem PushError.code_io {cause : IoError} (coded : cause.Coded) (path : String) :
    (PushError.io path cause).code ≠ 0 := by
  cases cause with
  | system errno => exact fun zero => coded (congrArg IoError.system zero)
  | other reason => exact Int.neg_ne_zero.mpr Int.one_ne_zero

namespace Disk

variable {d : Disk} {aim : Aim} {path : String} {e : IoError}

/-- Why a way can end too early. -/
def wayErrors : List Int :=
  [Errno.noEntry, Errno.notDirectory, Errno.isDirectory, Errno.nameTooLong, Errno.tooManyLinks]

section Way

variable {out : Int} (foreign : out ∉ wayErrors)
include foreign

theorem error_ne_of_foreign {known : Int} (member : known ∈ wayErrors) :
    (.error known : Except Int Spot) ≠ .error out := by
  intro same
  cases same
  exact foreign member

theorem exploreWith_ne {follow : String → Loc → Bool → List Step → Except Int Spot}
    (behind : ∀ target here slash rest, follow target here slash rest ≠ .error out)
    (here : Loc) (slash : Bool) (steps : List Step) :
    d.exploreWith aim follow here slash steps ≠ .error out := by
  have known := @error_ne_of_foreign out foreign
  induction steps generalizing here with
  | nil =>
    cases aim with
    | existing => exact fun same => by cases same
    | creating => exact known (by decide)
  | cons step rest ih =>
    cases step with
    | stay => exact ih here
    | up => exact ih here.tail
    | name n =>
      simp only [exploreWith]
      split
      · exact known (by decide)
      · split
        · exact known (by decide)
        · split
          · split
            · exact fun same => by cases same
            · exact known (by decide)
          · exact ih _
          · split
            · exact fun same => by cases same
            · exact known (by decide)
          · exact behind _ _ _ _

theorem explore_ne (links : Nat) (here : Loc) (slash : Bool) (steps : List Step) :
    d.explore aim links here slash steps ≠ .error out := by
  induction links generalizing here slash steps with
  | zero =>
    exact exploreWith_ne foreign (fun _ _ _ _ => error_ne_of_foreign foreign (by decide)) here slash
      steps
  | succ links ih => exact exploreWith_ne foreign (fun _ _ _ _ => ih _ _ _) here slash steps

omit d in
theorem read_ne (path : String) : Route.read path ≠ .error (.system out) := by
  unfold Route.read
  split
  · exact fun same => by cases same
  · split
    · intro same
      cases same
      exact foreign (by decide)
    · split
      · intro same
        cases same
        exact foreign (by decide)
      · exact fun same => by cases same

theorem locate_ne (aim : Aim) (path : String) : d.locate aim path ≠ .error (.system out) := by
  unfold locate
  split
  · next cause unread =>
    intro same
    cases same
    exact read_ne foreign path unread
  · next r _ =>
    have fails : d.explore aim Route.maxLinks (d.start r) r.slash r.steps ≠ .error out :=
      explore_ne foreign _ _ _ _
    intro same
    cases way : d.explore aim Route.maxLinks (d.start r) r.slash r.steps with
    | ok spot => rw [way] at same; cases same
    | error errno =>
      rw [way] at fails same
      cases same
      exact fails rfl

theorem place_ne (path : String) : d.place path ≠ .error (.system out) := by
  unfold place
  split
  · next cause unread =>
    intro same
    cases same
    exact read_ne foreign path unread
  · split
    · next errno way =>
      intro same
      cases same
      exact explore_ne foreign _ _ _ _ way
    · split <;> exact fun same => by cases same

omit d in
theorem checkName_ne {name : String} : checkName name ≠ .error (.system out) := by
  unfold checkName
  split
  · intro same
    cases same
    exact foreign (by decide)
  · exact fun same => by cases same

end Way

theorem locate_coded (failed : d.locate aim path = .error e) : e.Coded := by
  rintro rfl
  exact locate_ne (by decide) aim path failed

theorem place_coded (failed : d.place path = .error e) : e.Coded := by
  rintro rfl
  exact place_ne (by decide) path failed

theorem checkName_coded {name : String} (failed : checkName name = .error e) : e.Coded := by
  rintro rfl
  exact checkName_ne (by decide) failed

theorem target_coded (failed : d.target path = .error e) : e.Coded := by
  unfold target at failed
  split at failed
  · next lost =>
    cases failed
    exact locate_coded lost
  · cases failed
  · cases failed

theorem read_coded (failed : d.read path = .error e) : e.Coded := by
  unfold read at failed
  split at failed
  · next lost =>
    cases failed
    exact locate_coded lost
  · cases failed
  · cases failed
    exact IoError.coded_system (by decide)

theorem write_coded {bytes : ByteArray} (failed : (d.write path bytes).2 = .error e) :
    e.Coded := by
  unfold write at failed
  split at failed
  · next lost =>
    cases failed
    exact target_coded lost
  · cases failed

theorem copy_coded {source : String} (failed : (d.copy source path).2 = .error e) : e.Coded := by
  unfold copy at failed
  split at failed
  · next lost =>
    cases failed
    exact locate_coded lost
  · split at failed
    · next lost =>
      cases failed
      exact target_coded lost
    · dsimp only at failed
      split at failed <;> cases failed
  · cases failed
    exact IoError.coded_other _

theorem makeDir_coded (failed : (d.makeDir path).2 = .error e) : e.Coded := by
  unfold makeDir at failed
  split at failed
  · next lost =>
    cases failed
    exact place_coded lost
  · cases failed
    exact IoError.coded_system (by decide)
  · split at failed
    · next refused =>
      cases failed
      exact checkName_coded refused
    · split at failed <;> cases failed
      exact IoError.coded_system (by decide)

theorem orPresent_coded {made : Disk × Reply Unit}
    (failed : (d.orPresent path made).2 = .error e) : made.2 = .error e := by
  unfold orPresent at failed
  split at failed
  · split at failed
    · cases failed
    · exact failed
  · exact failed

theorem makeDirsFrom_coded {fuel : Nat} (failed : (d.makeDirsFrom fuel path).2 = .error e) :
    e.Coded := by
  induction fuel generalizing d path with
  | zero => cases failed
  | succ fuel ih =>
    unfold makeDirsFrom at failed
    split at failed
    · cases failed
    · split at failed
      · next errno made =>
        split at failed
        · split at failed
          · next outer =>
            cases failed
            exact ih (congrArg Prod.snd outer)
          · exact makeDir_coded (orPresent_coded failed)
        · cases failed
          exact makeDir_coded (orPresent_coded (congrArg Prod.snd made))
      · exact makeDir_coded (orPresent_coded failed)

theorem unlink_coded (failed : (d.unlink path).2 = .error e) : e.Coded := by
  unfold unlink at failed
  split at failed
  · next lost =>
    cases failed
    exact place_coded lost
  · cases failed
    exact IoError.coded_system (by decide)
  · split at failed
    · next refused =>
      cases failed
      exact checkName_coded refused
    · split at failed
      · cases failed
        exact IoError.coded_system (by decide)
      · cases failed
        exact IoError.coded_system (by decide)
      · split at failed <;> cases failed
        exact IoError.coded_system (by decide)

/-- Why a rename can be refused. -/
def renameErrors : List Int :=
  wayErrors ++ [Errno.busy, Errno.invalid, Errno.notEmpty]

section Rename

variable {out : Int} (foreign : out ∉ renameErrors)
include foreign

theorem renameFault_ne {old new : Loc} {slash : Bool} {entry : Entry} {there : Option Entry} :
    d.renameFault old new slash entry there ≠ some out := by
  have known : ∀ {errno}, errno ∈ renameErrors → some errno ≠ some out := by
    intro errno member same
    cases same
    exact foreign member
  have none : (Option.none : Option Int) ≠ some out := fun same => by cases same
  unfold renameFault
  dsimp only
  split
  · exact known (by decide)
  · split
    · exact known (by decide)
    · split
      · exact known (by decide)
      · split
        · exact none
        · split
          · exact none
          · split
            · exact known (by decide)
            · split
              · exact none
              · exact known (by decide)
          · split
            · exact known (by decide)
            · exact none

theorem passage_ne (old new : String) : d.passage old new ≠ .error (.system out) := by
  have way : out ∉ wayErrors := fun member => foreign (List.mem_append_left _ member)
  have known : ∀ {errno}, errno ∈ renameErrors →
      (.error (.system errno) : Reply (Loc × Loc)) ≠ .error (.system out) := by
    intro errno member same
    cases same
    exact foreign member
  unfold passage
  split
  · exact fun same => by cases same
  · split
    · next lost => exact fun same => by cases same; exact place_ne way _ lost
    · next lost _ => exact fun same => by cases same; exact place_ne way _ lost
    · split
      · split
        · next refused => exact fun same => by cases same; exact checkName_ne way refused
        · split
          · exact known (by decide)
          · next refused _ => exact fun same => by cases same; exact checkName_ne way refused
          · dsimp only
            split
            · next fault => exact fun same => by cases same; exact renameFault_ne foreign fault
            · exact fun same => by cases same
      · exact known (by decide)

theorem rename_ne (old new : String) : (d.rename old new).2 ≠ .error (.system out) := by
  unfold rename
  split
  · next refused => exact fun same => by cases same; exact passage_ne foreign old new refused
  · split <;> exact fun same => by cases same

end Rename

theorem rename_coded {old : String} (failed : (d.rename old path).2 = .error e) : e.Coded := by
  rintro rfl
  exact rename_ne (by decide) old path failed

theorem act_coded {action : Action} (failed : (d.act action).2 = .error e) : e.Coded := by
  cases action with
  | makeDirs path => exact makeDirsFrom_coded failed
  | copy source dest => exact copy_coded failed
  | write path bytes => exact write_coded failed
  | rename old new => exact rename_coded failed
  | unlink path => exact unlink_coded failed

end Disk

end Spool
