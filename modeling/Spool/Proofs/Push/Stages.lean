import Spool.Proofs.Push.Parcels

/-!
The stages of a transform. What is left to do is determined by the stage, and each stage makes one
call; how the call ends depends on few locations of the disk.
-/

namespace Spool

/-- How far a transform has come. -/
inductive Stage
  | reading
  | making
  /-- Ended: a file lies where a directory of these names is needed. -/
  | barred (names : List String)
  /-- Ended: the directory cannot be passed to the system. -/
  | turnedAway
  /-- Ended: a directory has a name that is too long. -/
  | refused
  | writing
  /-- The object could not be written and is to be discarded. -/
  | unwritable
  | unwritten
  | placing
  /-- The object could not take its place and is to be discarded. -/
  | failing
  | failed
  /-- The source is to be removed. -/
  | removing
  | ended

namespace Parcel

open Directory

/-- Why a path was refused, or else a name on it. -/
def fault (path : String) : IoError :=
  match Route.read path with
  | .error cause => cause
  | .ok _ => .system Errno.nameTooLong

def placing (base : String) (p : Parcel) : Push :=
  .act (.rename (p.beside base) (p.dest base)) fun
    | .error cause => discard (p.beside base) (p.dest base) cause
    | .ok () => Push.finish p.job.move p.job.source p.object.hash

def storing (base : String) (p : Parcel) : Push :=
  .act (.write (p.beside base) p.object.data) fun
    | .error cause => discard (p.beside base) (p.beside base) cause
    | .ok () => p.placing base

def program (base : String) (p : Parcel) : Stage → Push
  | .reading => transform base p.job
  | .making => withParent (p.dest base) (p.storing base)
  | .barred names => Push.failIo (p.parent base)
      (.system (if names = p.outer then Errno.entryExists else Errno.notDirectory))
  | .turnedAway | .refused => Push.failIo (p.parent base) (fault (p.parent base))
  | .writing => p.storing base
  | .unwritable => discard (p.beside base) (p.beside base) (fault (p.beside base))
  | .unwritten => Push.failIo (p.beside base) (fault (p.beside base))
  | .placing => p.placing base
  | .failing => discard (p.beside base) (p.dest base) (.system Errno.isDirectory)
  | .failed => Push.failIo (p.dest base) (.system Errno.isDirectory)
  | .removing => Push.finish true p.job.source p.object.hash
  | .ended => .done (.ok p.object.hash)

/-- Storing the object takes a directory of these names below the base. -/
def Needs (p : Parcel) (names : List String) : Prop :=
  names ≠ [] ∧ names <+: p.outer ∧ Disk.Short names

theorem onWay_iff {top : Loc} {p : Parcel} {loc : Loc} :
    Disk.OnWay top p.outer loc ↔ ∃ names, p.Needs names ∧ loc = Disk.under top names :=
  ⟨fun ⟨names, given, front, short, same⟩ => ⟨names, ⟨given, front, short⟩, same⟩,
    fun ⟨names, ⟨given, front, short⟩, same⟩ => ⟨names, given, front, short, same⟩⟩

theorem onWay_under {top : Loc} {p : Parcel} {names : List String} :
    Disk.OnWay top p.outer (Disk.under top names) ↔ p.Needs names := by
  rw [onWay_iff]
  constructor
  · rintro ⟨others, needs, same⟩
    rwa [Disk.under_inj.mp same]
  · intro needs
    exact ⟨names, needs, rfl⟩

theorem not_needs_trail {p q : Parcel} (shallow : p.outer.length ≤ q.outer.length) : ¬ p.Needs q.trail := by
  rintro ⟨_, front, _⟩
  have length := front.length_le
  simp only [trail, List.length_append, List.length_cons, List.length_nil] at length
  omega

theorem not_needs_sideTrail {p q : Parcel} (shallow : p.outer.length ≤ q.outer.length) :
    ¬ p.Needs q.sideTrail := by
  rintro ⟨_, front, _⟩
  have length := front.length_le
  simp only [sideTrail, List.length_append, List.length_cons, List.length_nil] at length
  omega

def place (top : Loc) (p : Parcel) : Loc := Disk.under top p.trail

def sidePlace (top : Loc) (p : Parcel) : Loc := Disk.under top p.sideTrail

theorem under_eq_place {top : Loc} {p : Parcel} {names : List String} :
    Disk.under top names = p.place top ↔ names = p.trail := Disk.under_inj

theorem under_eq_sidePlace {top : Loc} {p : Parcel} {names : List String} :
    Disk.under top names = p.sidePlace top ↔ names = p.sideTrail := Disk.under_inj

theorem outer_ne_nil (p : Parcel) : p.outer ≠ [] := by simp [outer]

theorem put_eq {d : Disk} {r : Route} {top : Loc} {p : Parcel} (based : d.Based r top)
    (through : d.descend top p.outer = .ok (Disk.under top p.outer))
    (free : d.at? (p.sidePlace top) ≠ some .dir) (bytes : ByteArray) (executable : Bool) :
    d.Swaps (d.put (p.sidePlace top) (.file bytes executable)) ∧
      ∀ loc, (d.put (p.sidePlace top) (.file bytes executable)).at? loc =
        if loc = p.sidePlace top then some (.file bytes executable) else d.at? loc := by
  have split : p.sidePlace top = partialName p.name :: Disk.under top p.outer :=
    Disk.under_concat _ _ _
  have inside : d.at? (Disk.under top p.outer) = some .dir :=
    Disk.isDir_of_onWay through
      ⟨p.outer, p.outer_ne_nil, List.prefix_rfl, Disk.short_of_descend through, rfl⟩
  refine ⟨Disk.swaps_put bytes executable split inside ⟨free, based.linkless p.sideTrail.reverse⟩, ?_⟩
  intro loc
  split
  · next here =>
    rw [here, split]
    exact Disk.at?_put_self d _
  · next away => exact Disk.at?_put_of_ne d _ away

theorem relocate_eq {d : Disk} {r : Route} {top : Loc} {p : Parcel} (based : d.Based r top)
    (home : d.at? d.here = some .dir)
    (through : d.descend top p.outer = .ok (Disk.under top p.outer)) {bytes : ByteArray}
    {executable : Bool} (file : d.at? (p.sidePlace top) = some (.file bytes executable))
    (free : d.at? (p.place top) ≠ some .dir) :
    d.Swaps (d.relocate (p.sidePlace top) (p.place top)) ∧
      ∀ loc, (d.relocate (p.sidePlace top) (p.place top)).at? loc =
        if loc = p.place top then some (.file bytes executable)
        else if loc = p.sidePlace top then none else d.at? loc :=
  based.relocate_eq home through p.outer_ne_nil (name_ne_partial _) file free

def placed (p : Parcel) : Stage := if p.job.move then .removing else .ended

/-- How a stage ends, and what the disk is then. -/
inductive Does (base : String) (top origin : Loc) (p : Parcel) (d : Disk) :
    Stage → Stage → Disk → Prop
  | read : Does base top origin p d .reading .making d
  | turn : ¬ p.Reached base → Does base top origin p d .making .turnedAway d
  | bar {names : List String} {bytes : ByteArray} {executable : Bool} : p.Reached base →
      p.Needs names → d.at? (Disk.under top names) = some (.file bytes executable) →
      Does base top origin p d .making (.barred names) d
  | make {e : Disk} : p.Reached base →
      (∀ loc, Disk.OnWay top p.outer loc → ∀ bytes executable,
        d.at? loc ≠ some (.file bytes executable)) →
      e.here = d.here → (∀ loc, Disk.OnWay top p.outer loc → e.at? loc = some .dir) →
      (∀ loc, ¬ Disk.OnWay top p.outer loc → e.at? loc = d.at? loc) →
      Does base top origin p d .making (if Disk.Short p.outer then .writing else .refused) e
  | write : p.Storable base → d.at? (p.sidePlace top) ≠ some .dir →
      Does base top origin p d .writing .placing
        (d.put (p.sidePlace top) (.file p.object.data false))
  | unwrite : ¬ p.Storable base → Does base top origin p d .writing .unwritable d
  | leave : ¬ p.Storable base → Does base top origin p d .unwritable .unwritten d
  | place : d.at? (p.place top) ≠ some .dir → Does base top origin p d .placing p.placed
      (d.relocate (p.sidePlace top) (p.place top))
  | fail : d.at? (p.place top) = some .dir → Does base top origin p d .placing .failing d
  | discard : Does base top origin p d .failing .failed (d.remove (p.sidePlace top))
  | remove : Does base top origin p d .removing .ended (d.remove origin)

section Calls

variable {σ : Type} {store : KeyStore σ} {w : World σ} {base : String} {top origin : Loc}
  {p : Parcel}

def replied (next : Push) (giveUp : IoError → Push) : Disk.Reply Unit → Push
  | .ok () => next
  | .error cause => giveUp cause

theorem step_withParent {path parent : String} (known : Path.parent? path = some parent)
    {d : Disk} {reply : Disk.Reply Unit} (made : w.disk.makeDirs parent = (d, reply)) (next : Push) :
    (withParent path next).step store w =
      ({ w with disk := d }, replied next (Push.failIo parent) reply) := by
  simp only [withParent, known, Program.step, Disk.act, made]
  cases reply <;> rfl

theorem step_storing {d : Disk} {reply : Disk.Reply Unit}
    (wrote : w.disk.write (p.beside base) p.object.data = (d, reply)) :
    (p.storing base).step store w = ({ w with disk := d },
      replied (p.placing base) (discard (p.beside base) (p.beside base)) reply) := by
  simp only [storing, Program.step, Disk.act, wrote]
  cases reply <;> rfl

theorem step_placing {d : Disk} {reply : Disk.Reply Unit}
    (renamed : w.disk.rename (p.beside base) (p.dest base) = (d, reply)) :
    (p.placing base).step store w = ({ w with disk := d },
      replied (Push.finish p.job.move p.job.source p.object.hash)
        (discard (p.beside base) (p.dest base)) reply) := by
  simp only [placing, Program.step, Disk.act, renamed]
  cases reply <;> rfl

theorem step_discard {beside path : String} {cause : IoError} {d : Disk} {reply : Disk.Reply Unit}
    (gone : w.disk.unlink beside = (d, reply)) :
    (discard beside path cause).step store w =
      ({ w with disk := d }, Push.failIo path cause) := by
  simp only [Directory.discard, Program.step, Disk.act, gone]

theorem discard_ends (store : KeyStore σ) (w : World σ) (beside path : String) (cause : IoError) :
    ((discard beside path cause).step store w).2 = .done (.error (.io path cause)) := rfl

theorem step_reading (there : w.disk.read p.job.source = .ok p.content) :
    (p.program base .reading).step store w = (w, p.program base .making) := by
  simp only [program, transform, Program.step, there]
  rfl

theorem step_making (based : w.disk.Based (Route.ofText base.toList) top) (plain : Plain p.job) :
    ∃ s d, Does base top origin p w.disk .making s d ∧
      (p.program base .making).step store w = ({ w with disk := d }, p.program base s) := by
  obtain ⟨known, _, up, n, split, leads⟩ := parent_leads base plain
  rw [show p.program base .making = withParent (p.dest base) (p.storing base) from rfl]
  cases passed : Route.read (p.parent base) with
  | error cause =>
    have made := Disk.makeDirs_unread (d := w.disk) leads passed
    have off : ¬ p.Reached base := by
      rw [Reached, passed]
      exact Bool.false_ne_true
    refine ⟨.turnedAway, w.disk, .turn off, ?_⟩
    simp only [program, fault, passed]
    exact step_withParent known made _
  | ok r =>
    have reached : p.Reached base := by
      rw [Reached, passed]
      rfl
    have made := Disk.makeDirs_made based ⟨leads, read_of_isOk reached⟩
    rw [← split] at made
    generalize result : w.disk.makeDirs (p.parent base) = res at made
    cases made with
    | @barred loc bytes executable on file =>
      obtain ⟨names, needs, rfl⟩ := onWay_iff.mp on
      refine ⟨.barred names, w.disk, .bar reached needs file, ?_⟩
      simp only [Disk.under_inj] at result
      rw [step_withParent known result]
      rfl
    | @made e clear here dirs kept =>
      refine ⟨_, e, .make reached clear here dirs kept, ?_⟩
      rw [step_withParent known result]
      by_cases short : Disk.Short p.outer
      · simp only [short, if_true, program, replied]
      · simp only [short, if_false, program, replied, fault, passed]

theorem beside_bare (plain : Plain p.job) :
    (Route.ofText (p.beside base).toList).slash = false := by
  rw [beside_eq]
  exact slash_pathOf (named_partial (named_name plain))

theorem dest_bare (plain : Plain p.job) : (Route.ofText (p.dest base).toList).slash = false := by
  rw [dest_eq]
  exact slash_pathOf (named_name plain)

/-- An object that cannot be stored has a path that is refused, or a name that is too long. -/
theorem unstorable (short : Disk.Short p.outer) (not : ¬ p.Storable base) :
    (∃ cause, Route.read (p.beside base) = .error cause) ∨
      (Route.read (p.beside base)).isOk = true ∧
        Route.maxName < (partialName p.name).utf8ByteSize := by
  cases passed : Route.read (p.beside base) with
  | error cause => exact .inl ⟨cause, rfl⟩
  | ok r =>
    refine .inr ⟨rfl, Nat.lt_of_not_le fun fits => not ⟨by rw [passed]; rfl, fun n member => ?_⟩⟩
    rcases List.mem_append.mp member with before | last
    · exact short n before
    · rw [List.mem_singleton.mp last]
      exact fits

theorem fault_of_isOk {path : String} (passed : (Route.read path).isOk = true) :
    fault path = .system Errno.nameTooLong := by
  rw [fault, read_of_isOk passed]

variable (based : w.disk.Based (Route.ofText base.toList) top) (plain : Plain p.job)
include based plain

theorem step_write (through : w.disk.descend top p.outer = .ok (Disk.under top p.outer))
    (storable : p.Storable base) (free : w.disk.at? (p.sidePlace top) ≠ some .dir)
    (bare : ∀ bytes executable, w.disk.at? (p.sidePlace top) = some (.file bytes executable) →
      executable = false) : (p.program base .writing).step store w =
        ({ w with disk := w.disk.put (p.sidePlace top) (.file p.object.data false) },
          p.program base .placing) := by
  have fits := storable.2 _ (List.mem_append_right _ List.mem_cons_self)
  have wrote := based.write_file (names_beside plain storable.1) through (beside_bare plain)
    (Nat.not_lt_of_le fits) free bare p.object.data
  exact step_storing wrote

theorem step_unwrite (through : w.disk.descend top p.outer = .ok (Disk.under top p.outer))
    (not : ¬ p.Storable base) : (p.program base .writing).step store w =
      (w, p.program base .unwritable) := by
  rcases unstorable (Disk.short_of_descend through) not with ⟨cause, unread⟩ | ⟨passed, long⟩
  · have wrote := Disk.write_unread (d := w.disk) unread p.object.data
    simp only [program, fault, unread]
    exact step_storing wrote
  · have wrote := based.write_long (names_beside plain passed) through (beside_bare plain)
      long p.object.data
    simp only [program, fault_of_isOk passed]
    exact step_storing wrote

theorem step_writing (through : w.disk.descend top p.outer = .ok (Disk.under top p.outer))
    (free : p.Storable base → w.disk.at? (p.sidePlace top) ≠ some .dir)
    (bare : ∀ bytes executable, w.disk.at? (p.sidePlace top) = some (.file bytes executable) →
      executable = false) : ∃ s d, Does base top origin p w.disk .writing s d ∧
      (p.program base .writing).step store w = ({ w with disk := d }, p.program base s) := by
  by_cases storable : p.Storable base
  · exact ⟨.placing, _, .write storable (free storable),
      step_write based plain through storable (free storable) bare⟩
  · exact ⟨.unwritable, w.disk, .unwrite storable, step_unwrite based plain through storable⟩

theorem step_unwritable (through : w.disk.descend top p.outer = .ok (Disk.under top p.outer))
    (not : ¬ p.Storable base) : (p.program base .unwritable).step store w =
      (w, p.program base .unwritten) := by
  simp only [program]
  rcases unstorable (Disk.short_of_descend through) not with ⟨cause, unread⟩ | ⟨passed, long⟩
  · exact step_discard (Disk.unlink_unread unread)
  · exact step_discard (based.unlink_long (names_beside plain passed) through long)

theorem step_failing (through : w.disk.descend top p.outer = .ok (Disk.under top p.outer))
    (storable : p.Storable base) {bytes : ByteArray} {executable : Bool}
    (there : w.disk.at? (p.sidePlace top) = some (.file bytes executable)) :
    (p.program base .failing).step store w =
      ({ w with disk := w.disk.remove (p.sidePlace top) }, p.program base .failed) := by
  have fits := storable.2 _ (List.mem_append_right _ List.mem_cons_self)
  exact step_discard (based.unlink_file (names_beside plain storable.1) through
    (beside_bare plain) (Nat.not_lt_of_le fits) there)

section Placing

variable (through : w.disk.descend top p.outer = .ok (Disk.under top p.outer))
  (storable : p.Storable base) {bytes : ByteArray} {executable : Bool}
  (there : w.disk.at? (p.sidePlace top) = some (.file bytes executable))
include through storable there

theorem step_place (free : w.disk.at? (p.place top) ≠ some .dir) :
    (p.program base .placing).step store w =
      ({ w with disk := w.disk.relocate (p.sidePlace top) (p.place top) },
        p.program base p.placed) := by
  have fits := storable.2 _ (List.mem_append_right _ List.mem_cons_self)
  have short := storable.short _ (List.mem_append_right _ List.mem_cons_self)
  have renamed := based.rename_file (names_beside plain storable.1)
    (names_dest plain storable) through ⟨beside_bare plain, dest_bare plain⟩
    ⟨Nat.not_lt_of_le fits, Nat.not_lt_of_le short⟩ (name_ne_partial _) there free
  refine (step_placing renamed).trans ?_
  unfold placed
  cases move : p.job.move with
  | false =>
    simp only [replied, program, Push.finish, Bool.false_eq_true, if_false]
    rfl
  | true =>
    simp only [replied, program, if_true]
    rfl

theorem step_fail (barred : w.disk.at? (p.place top) = some .dir) :
    (p.program base .placing).step store w = (w, p.program base .failing) := by
  have fits := storable.2 _ (List.mem_append_right _ List.mem_cons_self)
  have short := storable.short _ (List.mem_append_right _ List.mem_cons_self)
  have renamed := based.rename_barred (names_beside plain storable.1)
    (names_dest plain storable) through ⟨beside_bare plain, dest_bare plain⟩
    ⟨Nat.not_lt_of_le fits, Nat.not_lt_of_le short⟩ (name_ne_partial _) there barred
  exact step_placing renamed

theorem step_stored : ∃ s d, Does base top origin p w.disk .placing s d ∧
    (p.program base .placing).step store w = ({ w with disk := d }, p.program base s) := by
  by_cases free : w.disk.at? (p.place top) = some .dir
  · exact ⟨.failing, w.disk, .fail free,
      step_fail based plain through storable there free⟩
  · exact ⟨p.placed, _, .place free, step_place based plain through storable there free⟩

end Placing

omit based plain

theorem step_removing {file : Loc} (source : w.disk.Source p.job.source origin file) :
    (p.program base .removing).step store w =
      ({ w with disk := w.disk.remove origin }, p.program base .ended) := by
  simp only [program, Push.finish, if_true, Program.step, Disk.act, source.unlink_eq]

end Calls

end Parcel

end Spool
