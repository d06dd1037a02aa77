import Spool.Proofs.Push.Stages

/-!
What lies below the base while transforms share it. Directories are those that some transform made,
files are objects held beside their places or put there; nothing else on the disk changes but that
sources go. It takes that no two transforms want a name beside an object's place for different ends.
-/

namespace Spool

namespace Stage

def hasMade : Stage → Bool
  | .reading | .making | .barred _ | .turnedAway => false
  | _ => true

def holds : Stage → Bool
  | .placing | .failing => true
  | _ => false

def hasPlaced : Stage → Bool
  | .removing | .ended => true
  | _ => false

def hasLet : Stage → Bool
  | .failed | .removing | .ended => true
  | _ => false

def isOver : Stage → Bool
  | .barred _ | .turnedAway | .refused | .unwritten | .failed | .ended => true
  | _ => false

theorem holds_of_isOver {s : Stage} (isOver : s.isOver = true) : s.holds = false := by
  cases s <;> first | rfl | cases isOver

end Stage

namespace Parcel

/-- The second transform can get in the way of an object that the first one has beside its place: it
writes its own there, or makes a directory there, or other content takes that place. -/
def Clash (base : String) (p q : Parcel) : Prop :=
  p.Storable base ∧
    (q.Storable base ∧ p.sideTrail = q.sideTrail ∨
      q.Reached base ∧ p.sideTrail <+: q.outer ∨
      q.Storable base ∧ q.trail = p.sideTrail ∧ q.object.data ≠ p.object.data)

instance (base : String) (p q : Parcel) : Decidable (p.Clash base q) :=
  inferInstanceAs (Decidable (_ ∧ _))

def Fits (base : String) (p : Parcel) : Stage → Prop
  | .reading | .making => True
  | .barred _ => p.Reached base
  | .turnedAway => ¬ p.Reached base
  | .refused => p.Reached base ∧ ¬ Disk.Short p.outer
  | .writing => p.Reached base ∧ Disk.Short p.outer
  | .unwritable | .unwritten => p.Reached base ∧ Disk.Short p.outer ∧ ¬ p.Storable base
  | .removing => p.Storable base ∧ p.job.move = true
  | .placing | .failing | .failed | .ended => p.Storable base

def Gone (p : Parcel) (s : Stage) : Prop := s = .ended ∧ p.job.move = true

end Parcel

/-- Transforms that share a base, with the disk they find. -/
structure Site (n : Nat) where
  base : String
  /-- Where the base is. -/
  top : Loc
  start : Disk
  parcel : Fin n → Parcel
  /-- Where the names of the sources are. -/
  origin : Fin n → Loc
  /-- Where what they stand for is. -/
  file : Fin n → Loc

namespace Site

variable {n : Nat}

/-- The base is an empty directory, and each source a file of its own. -/
structure Sound (t : Site n) : Prop where
  based : t.start.Based (Route.ofText t.base.toList) t.top
  empty : ∀ names, names ≠ [] → t.start.at? (Disk.under t.top names) = none
  home : t.start.at? t.start.here = some .dir
  plain : ∀ i, Parcel.Plain (t.parcel i).job
  source : ∀ i, t.start.Source (t.parcel i).job.source (t.origin i) (t.file i)
  content : ∀ i, ∃ executable, t.start.at? (t.file i) =
    some (.file (t.parcel i).content executable)
  apart : ∀ i j, t.file i = t.file j → i = j

namespace Sound

variable {t : Site n}

theorem not_under (sound : t.Sound) {loc : Loc} (there : t.start.at? loc ≠ none)
    (other : t.start.at? loc ≠ some .dir) (names : List String) : loc ≠ Disk.under t.top names := by
  rintro rfl
  by_cases none : names = []
  · subst none
    exact other sound.based.isDir
  · exact there (sound.empty names none)

theorem origin_outside (sound : t.Sound) (i : Fin n) (names : List String) :
    t.origin i ≠ Disk.under t.top names :=
  sound.not_under (sound.source i).denotes.ne_none (sound.source i).denotes.ne_dir names

theorem file_outside (sound : t.Sound) (i : Fin n) (names : List String) :
    t.file i ≠ Disk.under t.top names := by
  obtain ⟨executable, there⟩ := sound.content i
  exact sound.not_under (by rw [there]; simp) (by rw [there]; simp) names

theorem origin_inj (sound : t.Sound) {i j : Fin n} (same : t.origin i = t.origin j) : i = j :=
  sound.apart i j ((sound.source i).denotes.unique (same ▸ (sound.source j).denotes))

theorem file_ne_origin (sound : t.Sound) {i j : Fin n} (other : i ≠ j) : t.file i ≠ t.origin j := by
  intro same
  obtain ⟨executable, there⟩ := sound.content i
  rw [same] at there
  exact other (sound.apart i j (same.trans ((sound.source j).denotes.eq_of_file there).symm))

end Sound

def Peaceful (t : Site n) : Prop :=
  ∀ i j, i ≠ j → ¬ (t.parcel i).Clash t.base (t.parcel j)

/-- Since the object of one transform took its place under these names, no other has used them. -/
def Last (t : Site n) (s : Fin n → Stage) (log : List (Fin n)) (names : List String) (i : Fin n) :
    Prop :=
  ∀ j, ((t.parcel j).sideTrail = names → (s j).holds = false ∧ ¬ [i, j].Sublist log) ∧
    ((s j).hasPlaced = true → (t.parcel j).trail = names → ¬ [i, j].Sublist log)

/-- The bytes are an object that is held under these names, or the last one that was put there. -/
def Lies (t : Site n) (s : Fin n → Stage) (log : List (Fin n)) (names : List String)
    (bytes : ByteArray) : Prop :=
  ∃ i, bytes = (t.parcel i).object.data ∧
    ((s i).holds ∧ (t.parcel i).sideTrail = names ∨
      (s i).hasPlaced ∧ (t.parcel i).trail = names ∧ t.Last s log names i)

/-- No other transform is where it gets in the way of the next call of this one. -/
structure Free (t : Site n) (s : Fin n → Stage) (i : Fin n) : Prop where
  making : s i = .making → (t.parcel i).Reached t.base → ∀ j, (s j).holds = true →
    ¬ (t.parcel i).Needs (t.parcel j).sideTrail
  writing : s i = .writing → (t.parcel i).Storable t.base → ∀ j, (s j).hasMade = true →
    ¬ (t.parcel j).Needs (t.parcel i).sideTrail
  alone : (t.parcel i).Storable t.base → ∀ j, j ≠ i → (s j).holds = true →
    (t.parcel j).sideTrail ≠ (t.parcel i).sideTrail
  placing : s i = .placing → ∀ j, (s j).holds = true →
    (t.parcel i).trail = (t.parcel j).sideTrail →
    (t.parcel i).object.data = (t.parcel j).object.data

/-- What is on a disk while the transforms are at the given stages. The log names those whose object
no longer lies beside its place, in the order in which that came about. -/
structure Shared (t : Site n) (d : Disk) (s : Fin n → Stage) (log : List (Fin n)) : Prop where
  based : d.Based (Route.ofText t.base.toList) t.top
  here : d.here = t.start.here
  kept : ∀ loc, (∀ names, names ≠ [] → loc ≠ Disk.under t.top names) →
    (∀ i, (t.parcel i).Gone (s i) → loc ≠ t.origin i) → d.at? loc = t.start.at? loc
  gone : ∀ i, (t.parcel i).Gone (s i) → d.at? (t.origin i) = none
  fits : ∀ i, (t.parcel i).Fits t.base (s i)
  dirs : ∀ names, names ≠ [] → (d.at? (Disk.under t.top names) = some .dir ↔
    ∃ i, (s i).hasMade ∧ (t.parcel i).Needs names)
  files : ∀ names, names ≠ [] → ∀ bytes executable,
    d.at? (Disk.under t.top names) = some (.file bytes executable) ↔
      executable = false ∧ t.Lies s log names bytes
  nodup : log.Nodup
  logged : ∀ i, i ∈ log ↔ (s i).hasLet
  failing : ∀ i, s i = .failing ∨ s i = .failed →
    ∃ j, (s j).hasMade ∧ (t.parcel j).Needs (t.parcel i).trail
  barred : ∀ i names, s i = .barred names →
    (t.parcel i).Needs names ∧ ∃ j, (s j).hasPlaced ∧ (t.parcel j).trail = names

def advance (s : Fin n → Stage) (i : Fin n) (b : Stage) : Fin n → Stage :=
  fun j => if j = i then b else s j

theorem advance_self (s : Fin n → Stage) (i : Fin n) (b : Stage) : advance s i b i = b :=
  if_pos rfl

theorem advance_of_ne (s : Fin n → Stage) {i j : Fin n} (b : Stage) (other : j ≠ i) :
    advance s i b j = s j :=
  if_neg other

end Site

namespace Parcel

variable {base : String} {p q : Parcel}

theorem Fits.reached {s : Stage} (fits : p.Fits base s) (plain : Plain p.job)
    (made : s.hasMade = true) : p.Reached base := by
  cases s with
  | reading | making | barred _ | turnedAway => cases made
  | refused | writing | unwritable | unwritten => exact fits.1
  | placing | failing | failed | ended => exact Storable.reached fits plain
  | removing => exact fits.1.reached plain

theorem Fits.storable {s : Stage} (fits : p.Fits base s)
    (held : s.holds = true ∨ s.hasLet = true) : p.Storable base := by
  cases s with
  | placing | failing | failed | ended => exact fits
  | removing => exact fits.1
  | _ => simp [Stage.holds, Stage.hasLet] at held

theorem hasLet_of_hasPlaced {s : Stage} (placed : s.hasPlaced = true) : s.hasLet = true := by
  cases s <;> first | rfl | cases placed

end Parcel

namespace Site

variable {n : Nat} {t : Site n} {d : Disk} {s : Fin n → Stage} {log : List (Fin n)} {i j : Fin n}

namespace Peaceful

variable (peaceful : t.Peaceful) (here : (t.parcel i).Storable t.base)
include peaceful here

theorem side_inj (there : (t.parcel j).Storable t.base)
    (same : (t.parcel i).sideTrail = (t.parcel j).sideTrail) : i = j :=
  Classical.byContradiction fun other => peaceful i j other ⟨here, .inl ⟨there, same⟩⟩

theorem not_needs_side (there : (t.parcel j).Reached t.base) :
    ¬ (t.parcel j).Needs (t.parcel i).sideTrail := by
  intro needs
  by_cases same : i = j
  · subst same
    exact Parcel.not_needs_sideTrail (Nat.le_refl _) needs
  · exact peaceful i j same ⟨here, .inr (.inl ⟨there, needs.2.1⟩)⟩

theorem data_eq (there : (t.parcel j).Storable t.base)
    (over' : (t.parcel j).trail = (t.parcel i).sideTrail) :
    (t.parcel j).object.data = (t.parcel i).object.data := by
  by_cases same : i = j
  · rw [same]
  · exact Classical.byContradiction fun other =>
      peaceful i j same ⟨here, .inr (.inr ⟨there, over', other⟩)⟩

end Peaceful

namespace Shared

variable (shared : t.Shared d s log)
include shared

theorem storable_of_mem (logged : i ∈ log) : (t.parcel i).Storable t.base :=
  (shared.fits i).storable (.inr ((shared.logged i).mp logged))

theorem storable_of_holds (holds : (s i).holds = true) : (t.parcel i).Storable t.base :=
  (shared.fits i).storable (.inl holds)

theorem mem_of_placed (placed : (s i).hasPlaced = true) : i ∈ log :=
  (shared.logged i).mpr (Parcel.hasLet_of_hasPlaced placed)

theorem free (sound : t.Sound) (peaceful : t.Peaceful) (i : Fin n) : t.Free s i where
  making _ reached _ holds := peaceful.not_needs_side (shared.storable_of_holds holds) reached
  writing _ storable j made :=
    peaceful.not_needs_side storable ((shared.fits j).reached (sound.plain j) made)
  alone storable _ other holds same :=
    other (peaceful.side_inj (shared.storable_of_holds holds) storable same)
  placing before j holds same :=
    have storable := (shared.fits i).storable (.inl (by rw [before]; rfl))
    peaceful.data_eq (shared.storable_of_holds holds) storable same

end Shared

end Site

end Spool
