import Spool.Proofs.Push.Turns

/-!
How a transform ends is decided by few others: by those whose objects lie where it needs a
directory, and by those that need a directory where its object goes. When it runs alone, after
these have run, it ends as it did among all.
-/

namespace Spool.Site

variable {n : Nat} {t : Site n} {d e : Disk} {s f : Fin n → Stage} {log : List (Fin n)}
  {i j : Fin n}

namespace Shared

theorem not_needs_placed (sound : t.Sound) (peaceful : t.Peaceful) (shared : t.Shared d s log)
    (placed : (s i).hasPlaced = true) (made : (s j).hasMade = true) :
    ¬ (t.parcel j).Needs (t.parcel i).trail := by
  intro needs
  have dir := (shared.dirs _ needs.1).mpr ⟨j, made, needs⟩
  have lies : t.Lies s log (t.parcel i).trail (t.parcel i).object.data := by
    refine ⟨i, rfl, .inr ⟨placed, rfl, fun k => ⟨fun same => ?_, fun placed' same after => ?_⟩⟩⟩
    · have reached := (shared.fits j).reached (sound.plain j) made
      constructor
      · refine Bool.eq_false_iff.mpr fun holds => ?_
        exact peaceful.not_needs_side (shared.storable_of_holds holds) reached (same ▸ needs)
      · intro after
        have member : k ∈ log := after.subset (by simp)
        have storable := shared.storable_of_mem member
        exact peaceful.not_needs_side storable reached (same ▸ needs)
    · have first := shared.storable_of_mem (shared.mem_of_placed placed)
      have second := shared.storable_of_mem (shared.mem_of_placed placed')
      have one := peaceful.side_inj second first (Parcel.sideTrail_of_trail same)
      subst one
      have nodup := after.nodup shared.nodup
      simp at nodup
  have file := (shared.files _ needs.1 _ false).mpr ⟨rfl, lies⟩
  rw [dir] at file
  cases file

end Shared

theorem hasMade_of_hasPlaced {a : Stage} (placed : a.hasPlaced = true) : a.hasMade = true := by
  cases a <;> first | rfl | cases placed

theorem over_cases {base : String} {p : Parcel} {a : Stage} (isOver : a.isOver = true)
    (fits : p.Fits base a) : ¬ p.Reached base ∧ a = .turnedAway ∨
      p.Reached base ∧ (∃ names, a = .barred names) ∨
      a.hasMade = true ∧ (¬ Disk.Short p.outer ∧ a = .refused ∨
        Disk.Short p.outer ∧ ¬ p.Storable base ∧ a = .unwritten ∨
        p.Storable base ∧ (a = .failed ∨ a = .ended)) := by
  cases a with
  | turnedAway => exact .inl ⟨fits, rfl⟩
  | barred names => exact .inr (.inl ⟨fits, names, rfl⟩)
  | refused => exact .inr (.inr ⟨rfl, .inl ⟨fits.2, rfl⟩⟩)
  | unwritten => exact .inr (.inr ⟨rfl, .inr (.inl ⟨fits.2.1, fits.2.2, rfl⟩)⟩)
  | failed => exact .inr (.inr ⟨rfl, .inr (.inr ⟨fits, .inl rfl⟩)⟩)
  | ended => exact .inr (.inr ⟨rfl, .inr (.inr ⟨fits, .inr rfl⟩)⟩)
  | _ => cases isOver

theorem trail_eq (sound : t.Sound) (peaceful : t.Peaceful) (shared : t.Shared d s log)
    (first : (s i).hasPlaced = true) (second : (s j).hasPlaced = true)
    (front : (t.parcel i).trail <+: (t.parcel j).trail) (short : Disk.Short (t.parcel i).trail) :
    (t.parcel i).trail = (t.parcel j).trail := by
  rcases List.prefix_concat_iff.mp front with same | shorter
  · exact same
  · exact absurd ⟨(t.parcel i).trail_ne_nil, shorter, short⟩
      (shared.not_needs_placed sound peaceful first (hasMade_of_hasPlaced second))

/-- A transform has run alone, after all that may decide how it ends; those were to end as they had
ended before, and the others had not begun. -/
structure Replay (t : Site n) (d : Disk) (f : Fin n → Stage) (last : List (Fin n)) (e : Disk)
    (s : Fin n → Stage) (now : List (Fin n)) (ran : List (Fin n)) (i : Fin n) : Prop where
  final : t.Shared d f last
  ended : ∀ j, (f j).isOver = true
  shared : t.Shared e s now
  isOver : (s i).isOver = true
  same : ∀ j, j ∈ ran → s j = f j
  idle : ∀ j, j ≠ i → j ∉ ran → s j = .reading
  barredLast : ∀ names, f i = .barred names → ∀ j, (f j).hasMade = true → j ∈ ran
  widerFirst : (f i).hasMade = true → ∀ j, (f j).hasMade = true →
    (t.parcel j).Needs (t.parcel i).trail → j ∈ ran

namespace Replay

variable {last now ran : List (Fin n)} {names others : List String}

theorem known (replay : t.Replay d f last e s now ran i) (other : j ≠ i)
    (made : (s j).hasMade = true) : s j = f j := by
  by_cases member : j ∈ ran
  · exact replay.same j member
  · rw [replay.idle j other member] at made
    cases made

variable (sound : t.Sound) (peaceful : t.Peaceful) (replay : t.Replay d f last e s now ran i)
include sound peaceful replay

theorem not_barred (made : (f i).hasMade = true) : s i ≠ .barred names := by
  intro bars
  obtain ⟨needs, k, placed, same⟩ := replay.shared.barred i names bars
  have other : k ≠ i := by
    rintro rfl
    rw [bars] at placed
    cases placed
  rw [replay.known other (hasMade_of_hasPlaced placed)] at placed
  exact replay.final.not_needs_placed sound peaceful placed made (same ▸ needs)

theorem not_made (bars : f i = .barred names) : (s i).hasMade ≠ true := by
  intro made
  obtain ⟨needs, k, placed, same⟩ := replay.final.barred i names bars
  rw [← replay.same k (replay.barredLast names bars k (hasMade_of_hasPlaced placed))] at placed
  exact replay.shared.not_needs_placed sound peaceful placed made (same ▸ needs)

theorem barred_eq (bars : f i = .barred names) (again : s i = .barred others) : names = others := by
  obtain ⟨⟨_, front, short⟩, k, placed, rfl⟩ := replay.final.barred i names bars
  obtain ⟨⟨_, front', short'⟩, k', placed', rfl⟩ := replay.shared.barred i others again
  have other : k' ≠ i := by
    rintro rfl
    rw [again] at placed'
    cases placed'
  rw [replay.known other (hasMade_of_hasPlaced placed')] at placed'
  rcases List.prefix_or_prefix_of_prefix front front' with shorter | shorter
  · exact trail_eq sound peaceful replay.final placed placed' shorter short
  · exact (trail_eq sound peaceful replay.final placed' placed shorter short').symm

theorem not_failed (placed : f i = .ended) : s i ≠ .failed := by
  intro fails
  obtain ⟨j, made, needs⟩ := replay.shared.failing i (.inr fails)
  have other : j ≠ i := by
    rintro rfl
    exact Parcel.not_needs_trail (Nat.le_refl _) needs
  rw [replay.known other made] at made
  exact replay.final.not_needs_placed sound peaceful (by rw [placed]; rfl) made needs

theorem not_ended (fails : f i = .failed) : s i ≠ .ended := by
  intro placed
  obtain ⟨j, made, needs⟩ := replay.final.failing i (.inr fails)
  rw [← replay.same j (replay.widerFirst (by rw [fails]; rfl) j made needs)] at made
  exact replay.shared.not_needs_placed sound peaceful (by rw [placed]; rfl) made needs

/-- The transform ends as it did before. -/
theorem agree : s i = f i := by
  have reached : (f i).hasMade = true → (t.parcel i).Reached t.base :=
    (replay.final.fits i).reached (sound.plain i)
  have reached' : (s i).hasMade = true → (t.parcel i).Reached t.base :=
    (replay.shared.fits i).reached (sound.plain i)
  rcases over_cases (replay.ended i) (replay.final.fits i) with
    ⟨off, before⟩ | ⟨on, names, before⟩ | ⟨made, before⟩
  · rcases over_cases replay.isOver (replay.shared.fits i) with ⟨_, after⟩ | ⟨on, _⟩ | ⟨made, _⟩
    · rw [before, after]
    · exact absurd on off
    · exact absurd (reached' made) off
  · rcases over_cases replay.isOver (replay.shared.fits i) with
      ⟨off, _⟩ | ⟨_, others, after⟩ | ⟨made, _⟩
    · exact absurd on off
    · rw [before, after, replay.barred_eq sound peaceful before after]
    · exact absurd made (replay.not_made sound peaceful before)
  · rcases over_cases replay.isOver (replay.shared.fits i) with
      ⟨off, _⟩ | ⟨_, others, after⟩ | ⟨_, after⟩
    · exact absurd (reached made) off
    · exact absurd after (replay.not_barred sound peaceful made)
    · rcases before with ⟨long, before⟩ | ⟨short, unfit, before⟩ | ⟨fit, before⟩
      · rcases after with ⟨_, after⟩ | ⟨short, _⟩ | ⟨fit, _⟩
        · rw [before, after]
        · exact absurd short long
        · exact absurd fit.shortOuter long
      · rcases after with ⟨long, _⟩ | ⟨_, _, after⟩ | ⟨fit, _⟩
        · exact absurd short long
        · rw [before, after]
        · exact absurd fit unfit
      · rcases after with ⟨long, _⟩ | ⟨_, unfit, _⟩ | ⟨_, after⟩
        · exact absurd fit.shortOuter long
        · exact absurd fit unfit
        · rcases before with before | before <;> rcases after with after | after
          · rw [before, after]
          · exact absurd after (replay.not_ended sound peaceful before)
          · exact absurd after (replay.not_failed sound peaceful before)
          · rw [before, after]

end Replay

end Spool.Site
