import Spool.Proofs.Push.Sharing

/-!
Each step of a transform keeps what is shared as it is described, whatever stages the others are at.
-/

namespace Spool.Site

theorem pair_sublist_concat {α : Type} {l : List α} {a b c : α} :
    [a, b].Sublist (l ++ [c]) ↔ [a, b].Sublist l ∨ a ∈ l ∧ b = c := by
  induction l with
  | nil => simp [List.sublist_cons_iff]
  | cons x l ih =>
    rw [List.cons_append, List.sublist_cons_iff, List.sublist_cons_iff, ih]
    simp
    grind

variable {n : Nat} {t : Site n} {d e : Disk} {s : Fin n → Stage} {log : List (Fin n)} {i : Fin n}
  {b : Stage}

theorem advance_same {α : Type} (f : Stage → α) (same : f b = f (s i)) (j : Fin n) :
    f (advance s i b j) = f (s j) := by
  by_cases here : j = i
  · rw [here, advance_self, same]
  · rw [advance_of_ne s b here]

namespace Shared

/-- The fields that speak of single stages, once a stage has changed. -/
theorem failing_advance (shared : t.Shared d s log)
    (made : ∀ j, (s j).hasMade = true → (advance s i b j).hasMade = true)
    (new : b = .failing ∨ b = .failed →
      ∃ j, (s j).hasMade ∧ (t.parcel j).Needs (t.parcel i).trail) (k : Fin n)
    (fails : advance s i b k = .failing ∨ advance s i b k = .failed) :
    ∃ j, (advance s i b j).hasMade ∧ (t.parcel j).Needs (t.parcel k).trail := by
  by_cases here : k = i
  · subst here
    rw [advance_self] at fails
    obtain ⟨j, there, needs⟩ := new fails
    exact ⟨j, made j there, needs⟩
  · rw [advance_of_ne s b here] at fails
    obtain ⟨j, there, needs⟩ := shared.failing k fails
    exact ⟨j, made j there, needs⟩

theorem barred_advance (shared : t.Shared d s log)
    (placed : ∀ j, (s j).hasPlaced = true → (advance s i b j).hasPlaced = true)
    (new : ∀ names, b = .barred names →
      (t.parcel i).Needs names ∧ ∃ j, (s j).hasPlaced ∧ (t.parcel j).trail = names) (k : Fin n)
    (names : List String) (bars : advance s i b k = .barred names) :
    (t.parcel k).Needs names ∧
      ∃ j, (advance s i b j).hasPlaced ∧ (t.parcel j).trail = names := by
  by_cases here : k = i
  · subst here
    rw [advance_self] at bars
    obtain ⟨needs, j, there, same⟩ := new names bars
    exact ⟨needs, j, placed j there, same⟩
  · rw [advance_of_ne s b here] at bars
    obtain ⟨needs, j, there, same⟩ := shared.barred k names bars
    exact ⟨needs, j, placed j there, same⟩

theorem fits_advance (shared : t.Shared d s log) (new : (t.parcel i).Fits t.base b) (k : Fin n) :
    (t.parcel k).Fits t.base (advance s i b k) := by
  by_cases here : k = i
  · subst here
    rw [advance_self]
    exact new
  · rw [advance_of_ne s b here]
    exact shared.fits k

theorem gone_advance (still : ¬ (t.parcel i).Gone (s i)) (stays : ¬ (t.parcel i).Gone b)
    (k : Fin n) : (t.parcel k).Gone (advance s i b k) ↔ (t.parcel k).Gone (s k) := by
  by_cases here : k = i
  · subst here
    rw [advance_self]
    exact iff_of_false stays still
  · rw [advance_of_ne s b here]

theorem quiet (shared : t.Shared d s log) (made : b.hasMade = (s i).hasMade)
    (holds : b.holds = (s i).holds) (placed : b.hasPlaced = (s i).hasPlaced)
    (gave : b.hasLet = (s i).hasLet) (still : ¬ (t.parcel i).Gone (s i))
    (stays : ¬ (t.parcel i).Gone b)
    (fits : (t.parcel i).Fits t.base b)
    (failing : b = .failing ∨ b = .failed →
      ∃ j, (s j).hasMade ∧ (t.parcel j).Needs (t.parcel i).trail)
    (barred : ∀ names, b = .barred names →
      (t.parcel i).Needs names ∧ ∃ j, (s j).hasPlaced ∧ (t.parcel j).trail = names) :
    t.Shared d (advance s i b) log where
  based := shared.based
  here := shared.here
  kept loc off others := shared.kept loc off fun k gone =>
    others k ((gone_advance still stays k).mpr gone)
  gone k gone := shared.gone k ((gone_advance still stays k).mp gone)
  fits := shared.fits_advance fits
  dirs names given := by
    simp only [advance_same Stage.hasMade made]
    exact shared.dirs names given
  files names given bytes executable := by
    simp only [Lies, Last, advance_same Stage.holds holds, advance_same Stage.hasPlaced placed]
    exact shared.files names given bytes executable
  nodup := shared.nodup
  logged k := by
    rw [advance_same Stage.hasLet gave]
    exact shared.logged k
  failing := shared.failing_advance (fun j there => by rwa [advance_same Stage.hasMade made]) failing
  barred := shared.barred_advance
    (fun j there => by rwa [advance_same Stage.hasPlaced placed]) barred

theorem prepare (sound : t.Sound) (shared : t.Shared d s log)
    (clear : ∀ loc, Disk.OnWay t.top (t.parcel i).outer loc → ∀ bytes executable,
      d.at? loc ≠ some (.file bytes executable))
    (here : e.here = d.here)
    (dirs : ∀ loc, Disk.OnWay t.top (t.parcel i).outer loc → e.at? loc = some .dir)
    (kept : ∀ loc, ¬ Disk.OnWay t.top (t.parcel i).outer loc → e.at? loc = d.at? loc)
    (made : b.hasMade = true) (holds : b.holds = (s i).holds)
    (placed : b.hasPlaced = (s i).hasPlaced) (gave : b.hasLet = (s i).hasLet)
    (still : ¬ (t.parcel i).Gone (s i)) (stays : ¬ (t.parcel i).Gone b)
    (fits : (t.parcel i).Fits t.base b) (noFailing : ¬ (b = .failing ∨ b = .failed))
    (noBarred : ∀ names, b ≠ .barred names) : t.Shared e (advance s i b) log := by
  have off : ∀ loc, (∀ names, names ≠ [] → loc ≠ Disk.under t.top names) → e.at? loc = d.at? loc := by
    intro loc outside
    refine kept loc fun on => ?_
    obtain ⟨names, needs, rfl⟩ := Parcel.onWay_iff.mp on
    exact outside names needs.1 rfl
  refine
    { based := (Disk.steady_of_made shared.based here dirs kept).based shared.based
      here := here.trans shared.here
      kept := fun loc outside others => ?_
      gone := fun k gone => ?_
      fits := shared.fits_advance fits
      dirs := fun names given => ?_
      files := fun names given bytes executable => ?_
      nodup := shared.nodup
      logged := fun k => ?_
      failing := shared.failing_advance (fun j there => ?_) fun fails => absurd fails noFailing
      barred := shared.barred_advance (fun j there => ?_) fun names bars =>
        absurd bars (noBarred names) }
  · rw [off loc outside]
    exact shared.kept loc outside fun k gone => others k ((gone_advance still stays k).mpr gone)
  · rw [off _ fun names _ => sound.origin_outside k names]
    exact shared.gone k ((gone_advance still stays k).mp gone)
  · by_cases needs : (t.parcel i).Needs names
    · exact iff_of_true (dirs _ (Parcel.onWay_under.mpr needs)) ⟨i, by rwa [advance_self], needs⟩
    · rw [kept _ fun on => needs (Parcel.onWay_under.mp on), shared.dirs names given]
      refine exists_congr fun j => and_congr_left fun there => ?_
      have other : j ≠ i := by
        rintro rfl
        exact needs there
      rw [advance_of_ne s b other]
  · have lies : t.Lies (advance s i b) log names bytes ↔ t.Lies s log names bytes := by
      simp only [Lies, Last, advance_same Stage.holds holds, advance_same Stage.hasPlaced placed]
    rw [lies, ← shared.files names given]
    by_cases needs : (t.parcel i).Needs names
    · have on : Disk.OnWay t.top (t.parcel i).outer (Disk.under t.top names) :=
        Parcel.onWay_under.mpr needs
      rw [dirs _ on]
      exact iff_of_false (by simp) (clear _ on bytes executable)
    · rw [kept _ fun on => needs (Parcel.onWay_under.mp on)]
  · rw [advance_same Stage.hasLet gave]
    exact shared.logged k
  · by_cases here : j = i
    · rw [here, advance_self, made]
    · rwa [advance_of_ne s b here]
  · rwa [advance_same Stage.hasPlaced placed]

theorem make (sound : t.Sound) (shared : t.Shared d s log) (before : s i = .making)
    (reached : (t.parcel i).Reached t.base)
    (clear : ∀ loc, Disk.OnWay t.top (t.parcel i).outer loc → ∀ bytes executable,
      d.at? loc ≠ some (.file bytes executable))
    (here : e.here = d.here)
    (dirs : ∀ loc, Disk.OnWay t.top (t.parcel i).outer loc → e.at? loc = some .dir)
    (kept : ∀ loc, ¬ Disk.OnWay t.top (t.parcel i).outer loc → e.at? loc = d.at? loc) :
    t.Shared e (advance s i (if Disk.Short (t.parcel i).outer then .writing else .refused)) log := by
  by_cases short : Disk.Short (t.parcel i).outer
  · rw [if_pos short]
    refine shared.prepare sound clear here dirs kept rfl ?_ ?_ ?_ ?_ ?_ ⟨reached, short⟩ ?_ ?_ <;>
      simp [before, Parcel.Gone, Stage.holds, Stage.hasPlaced, Stage.hasLet]
  · rw [if_neg short]
    refine shared.prepare sound clear here dirs kept rfl ?_ ?_ ?_ ?_ ?_ ⟨reached, short⟩ ?_ ?_ <;>
      simp [before, Parcel.Gone, Stage.holds, Stage.hasPlaced, Stage.hasLet]

theorem refile (sound : t.Sound) (shared : t.Shared d s log) (swaps : d.Swaps e)
    (off : ∀ loc, (∀ names, names ≠ [] → loc ≠ Disk.under t.top names) → e.at? loc = d.at? loc)
    {after : List (Fin n)} (made : b.hasMade = (s i).hasMade)
    (placed : (s i).hasPlaced = true → b.hasPlaced = true)
    (still : ¬ (t.parcel i).Gone (s i)) (stays : ¬ (t.parcel i).Gone b)
    (fits : (t.parcel i).Fits t.base b) (noBarred : ∀ names, b ≠ .barred names)
    (failing : b = .failing ∨ b = .failed →
      ∃ j, (s j).hasMade ∧ (t.parcel j).Needs (t.parcel i).trail)
    (files : ∀ names, names ≠ [] → ∀ bytes executable,
      e.at? (Disk.under t.top names) = some (.file bytes executable) ↔
        executable = false ∧ t.Lies (advance s i b) after names bytes)
    (nodup : after.Nodup) (logged : ∀ k, k ∈ after ↔ (advance s i b k).hasLet) :
    t.Shared e (advance s i b) after where
  based := swaps.steady.based shared.based
  here := swaps.here.trans shared.here
  kept loc outside others := (off loc outside).trans <|
    shared.kept loc outside fun k gone => others k ((gone_advance still stays k).mpr gone)
  gone k gone := (off _ fun names _ => sound.origin_outside k names).trans <|
    shared.gone k ((gone_advance still stays k).mp gone)
  fits := shared.fits_advance fits
  dirs names given := by
    simp only [advance_same Stage.hasMade made]
    exact swaps.isDir.trans (shared.dirs names given)
  files := files
  nodup := nodup
  logged := logged
  failing := shared.failing_advance (fun j there => by rwa [advance_same Stage.hasMade made]) failing
  barred := shared.barred_advance
    (fun j there => by
      by_cases here : j = i
      · rw [here, advance_self]
        exact placed (here ▸ there)
      · rwa [advance_of_ne s b here])
    fun names bars => absurd bars (noBarred names)

/-- Where nothing comes or goes by a step, the same lies there as before. -/
theorem lies_advance {after : List (Fin n)} {names : List String} {bytes : ByteArray}
    (apart : (t.parcel i).sideTrail ≠ names)
    (goal : b.hasPlaced = true ∨ (s i).hasPlaced = true → (t.parcel i).trail ≠ names)
    (logs : ∀ j k, k ≠ i → ([j, k].Sublist after ↔ [j, k].Sublist log)) :
    t.Lies (advance s i b) after names bytes ↔ t.Lies s log names bytes := by
  have last : ∀ j, t.Last (advance s i b) after names j ↔ t.Last s log names j := by
    refine fun j => forall_congr' fun k => ?_
    by_cases here : k = i
    · subst here
      rw [advance_self]
      constructor
      · exact fun _ => ⟨fun same => absurd same apart,
          fun placed same => absurd same (goal (.inr placed))⟩
      · exact fun _ => ⟨fun same => absurd same apart,
          fun placed same => absurd same (goal (.inl placed))⟩
    · rw [advance_of_ne s b here, logs j k here]
  refine exists_congr fun j => and_congr_right fun _ => ?_
  by_cases here : j = i
  · subst here
    rw [advance_self]
    constructor
    · rintro (⟨_, same⟩ | ⟨placed, same, _⟩)
      · exact absurd same apart
      · exact absurd same (goal (.inl placed))
    · rintro (⟨_, same⟩ | ⟨placed, same, _⟩)
      · exact absurd same apart
      · exact absurd same (goal (.inr placed))
  · rw [advance_of_ne s b here, last j]

theorem descend (shared : t.Shared d s log) (made : (s i).hasMade = true)
    (short : Disk.Short (t.parcel i).outer) :
    d.descend t.top (t.parcel i).outer = .ok (Disk.under t.top (t.parcel i).outer) := by
  refine Disk.descend_of_onWay short fun loc on => ?_
  obtain ⟨names, needs, rfl⟩ := Parcel.onWay_iff.mp on
  exact (shared.dirs names needs.1).mpr ⟨i, made, needs⟩

theorem linkless (shared : t.Shared d s log) (names : List String) (target : String) :
    d.at? (Disk.under t.top names) ≠ some (.link target) :=
  shared.based.linkless names.reverse target

theorem write (sound : t.Sound) (alone : t.Free s i) (shared : t.Shared d s log)
    (before : s i = .writing) (storable : (t.parcel i).Storable t.base)
    (free : d.at? ((t.parcel i).sidePlace t.top) ≠ some .dir) :
    t.Shared (d.put ((t.parcel i).sidePlace t.top) (.file (t.parcel i).object.data false))
      (advance s i .placing) log := by
  have through := shared.descend (i := i) (by rw [before]; rfl) storable.shortOuter
  obtain ⟨swaps, entries⟩ :=
    Parcel.put_eq shared.based through free (t.parcel i).object.data false
  refine refile sound shared swaps ?_ (by rw [before]; rfl) (by simp [before, Stage.hasPlaced])
    (by simp [before, Parcel.Gone]) (by simp [Parcel.Gone]) storable (by simp) (by simp) ?_
    shared.nodup ?_
  · intro loc outside
    exact Disk.at?_put_of_ne d _ (outside _ (t.parcel i).sideTrail_ne_nil)
  · intro names given bytes executable
    simp only [entries, Parcel.under_eq_sidePlace]
    by_cases here : (t.parcel i).sideTrail = names
    · subst here
      rw [if_pos rfl]
      constructor
      · intro same
        cases same
        exact ⟨rfl, i, rfl, .inl ⟨by rw [advance_self]; rfl, rfl⟩⟩
      · rintro ⟨rfl, j, rfl, own⟩
        by_cases other : j = i
        · rw [other]
        · rw [advance_of_ne s _ other] at own
          rcases own with ⟨holds, same⟩ | ⟨_, _, last⟩
          · exact absurd same (alone.alone storable j other holds)
          · have released := ((last i).1 rfl).1
            rw [advance_self] at released
            cases released
    · rw [if_neg (Ne.symm here), lies_advance here (by simp [before, Stage.hasPlaced]) fun _ _ _ => .rfl]
      exact shared.files names given bytes executable
  · intro k
    rw [advance_same Stage.hasLet (by rw [before]; rfl)]
    exact shared.logged k

theorem not_lies_side (alone : t.Free s i) (shared : t.Shared d s log)
    (storable : (t.parcel i).Storable t.base) (free : b.holds = false) (bytes : ByteArray) :
    ¬ t.Lies (advance s i b) (log ++ [i]) (t.parcel i).sideTrail bytes := by
  rintro ⟨j, _, own⟩
  by_cases here : j = i
  · subst here
    rw [advance_self] at own
    rcases own with ⟨holds, _⟩ | ⟨_, same, _⟩
    · rw [free] at holds
      cases holds
    · exact (t.parcel j).side_ne_trail same.symm
  · rw [advance_of_ne s b here] at own
    rcases own with ⟨holds, same⟩ | ⟨placed, _, last⟩
    · exact alone.alone storable j here holds same
    · exact ((last i).1 rfl).2 (pair_sublist_concat.mpr (.inr ⟨shared.mem_of_placed placed, rfl⟩))

theorem held (shared : t.Shared d s log) (holds : (s i).holds = true) :
    d.at? ((t.parcel i).sidePlace t.top) = some (.file (t.parcel i).object.data false) :=
  (shared.files _ (t.parcel i).sideTrail_ne_nil _ _).mpr ⟨rfl, i, rfl, .inl ⟨holds, rfl⟩⟩

theorem not_mem_of_holds (shared : t.Shared d s log) (holds : (s i).holds = true) : i ∉ log := by
  intro logged
  have gave := (shared.logged i).mp logged
  cases stage : s i <;> simp [stage, Stage.holds, Stage.hasLet] at holds gave

theorem nodup_concat (shared : t.Shared d s log) (holds : (s i).holds = true) :
    (log ++ [i]).Nodup := by
  rw [List.nodup_append]
  refine ⟨shared.nodup, by simp, ?_⟩
  intro j logged k single same
  rw [List.mem_singleton] at single
  exact shared.not_mem_of_holds holds (single ▸ same ▸ logged)

theorem logged_concat (shared : t.Shared d s log) (gave : b.hasLet = true) (k : Fin n) :
    k ∈ log ++ [i] ↔ (advance s i b k).hasLet := by
  rw [List.mem_append, List.mem_singleton]
  by_cases here : k = i
  · subst here
    rw [advance_self, gave]
    exact iff_of_true (.inr rfl) rfl
  · rw [advance_of_ne s b here, shared.logged k]
    exact or_iff_left here

theorem discard (sound : t.Sound) (alone : t.Free s i) (shared : t.Shared d s log)
    (before : s i = .failing) :
    t.Shared (d.remove ((t.parcel i).sidePlace t.top)) (advance s i .failed) (log ++ [i]) := by
  have holds : (s i).holds = true := by rw [before]; rfl
  have storable := shared.storable_of_holds holds
  have split : (t.parcel i).sidePlace t.top = _ := Disk.under_concat _ _ _
  have file := shared.held holds
  have swaps : d.Swaps (d.remove ((t.parcel i).sidePlace t.top)) := by
    rw [split] at file ⊢
    exact Disk.swaps_remove (file ▸ Disk.isLeaf_file _ _)
  refine refile sound shared swaps ?_ (by rw [before]; rfl) (by simp [before, Stage.hasPlaced])
    (by simp [before, Parcel.Gone]) (by simp [Parcel.Gone]) storable (by simp)
    (fun _ => shared.failing i (.inl before)) ?_ (shared.nodup_concat holds)
    (shared.logged_concat rfl)
  · intro loc outside
    exact Disk.at?_remove_of_ne d (outside _ (t.parcel i).sideTrail_ne_nil)
  · intro names given bytes executable
    by_cases here : (t.parcel i).sideTrail = names
    · subst here
      have there : (d.remove ((t.parcel i).sidePlace t.top)).at?
          (Disk.under t.top (t.parcel i).sideTrail) = none := by
        change Disk.at? _ ((t.parcel i).sidePlace t.top) = _
        rw [split]
        exact Disk.at?_remove_self d _ _
      rw [there]
      exact iff_of_false (by simp) fun lies =>
        shared.not_lies_side alone storable rfl bytes lies.2
    · have other : Disk.under t.top names ≠ (t.parcel i).sidePlace t.top := fun same =>
        here (Parcel.under_eq_sidePlace.mp same).symm
      rw [Disk.at?_remove_of_ne d other, lies_advance here (by simp [before, Stage.hasPlaced])]
      · exact shared.files names given bytes executable
      · intro j k differs
        rw [pair_sublist_concat]
        exact or_iff_left fun last => differs last.2

theorem home (sound : t.Sound) (shared : t.Shared d s log) : d.at? d.here = some .dir := by
  rw [shared.here, ← sound.home]
  refine shared.kept _ ?_ ?_
  · intro names given same
    have home := sound.home
    rw [same, sound.empty names given] at home
    cases home
  · intro k _ same
    exact (sound.source k).denotes.ne_dir (same ▸ sound.home)

/-- An object that takes its place lies there, or one that would be put over it with the same
content. -/
theorem lies_trail (alone : t.Free s i) (shared : t.Shared d s log) (before : s i = .placing)
    (placed : b.hasPlaced = true) (noHolds : b.holds = false) {bytes : ByteArray} :
    t.Lies (advance s i b) (log ++ [i]) (t.parcel i).trail bytes ↔
      bytes = (t.parcel i).object.data := by
  have fresh := shared.not_mem_of_holds (i := i) (by rw [before]; rfl)
  -- nothing is logged behind an object that only now takes its place
  have unlogged : ∀ j, ¬ [i, j].Sublist (log ++ [i]) := by
    intro j after
    rcases pair_sublist_concat.mp after with before | ⟨before, _⟩
    · exact fresh (before.subset List.mem_cons_self)
    · exact fresh before
  constructor
  · rintro ⟨j, rfl, own⟩
    by_cases other : j = i
    · rw [other]
    · rw [advance_of_ne s _ other] at own
      rcases own with ⟨holds, same⟩ | ⟨placed', same, last⟩
      · rw [alone.placing before j holds same.symm]
      · have member := shared.mem_of_placed placed'
        exact absurd (pair_sublist_concat.mpr (.inr ⟨member, rfl⟩))
          ((last i).2 (by rw [advance_self, placed]) rfl)
  · rintro rfl
    by_cases held : ∃ j, (t.parcel j).sideTrail = (t.parcel i).trail ∧ (s j).holds = true
    · obtain ⟨j, same, holds⟩ := held
      have other : j ≠ i := by
        rintro rfl
        exact (t.parcel j).side_ne_trail same
      refine ⟨j, alone.placing before j holds same.symm, .inl ⟨?_, same⟩⟩
      rw [advance_of_ne s b other, holds]
    · refine ⟨i, rfl, .inr ⟨by rw [advance_self, placed], rfl, fun j => ⟨fun same => ?_, ?_⟩⟩⟩
      · refine ⟨?_, unlogged j⟩
        by_cases here : j = i
        · rw [here, advance_self, noHolds]
        · rw [advance_of_ne s b here]
          exact Bool.eq_false_iff.mpr fun holds => held ⟨j, same, holds⟩
      · exact fun _ _ => unlogged j

theorem place (sound : t.Sound) (alone : t.Free s i) (shared : t.Shared d s log)
    (before : s i = .placing) (free : d.at? ((t.parcel i).place t.top) ≠ some .dir) :
    t.Shared (d.relocate ((t.parcel i).sidePlace t.top) ((t.parcel i).place t.top))
      (advance s i (t.parcel i).placed) (log ++ [i]) := by
  have holds : (s i).holds = true := by rw [before]; rfl
  have storable := shared.storable_of_holds holds
  have made : (s i).hasMade = true := by rw [before]; rfl
  obtain ⟨swaps, entries⟩ := Parcel.relocate_eq shared.based (shared.home sound)
    (shared.descend made storable.shortOuter) (shared.held holds) free
  have known : (t.parcel i).placed.hasMade = true ∧ (t.parcel i).placed.holds = false ∧
      (t.parcel i).placed.hasPlaced = true ∧ (t.parcel i).placed.hasLet = true ∧
      ¬ (t.parcel i).Gone (t.parcel i).placed ∧
      (t.parcel i).Fits t.base (t.parcel i).placed ∧ (t.parcel i).placed ≠ .failing ∧
      (t.parcel i).placed ≠ .failed ∧ ∀ names, (t.parcel i).placed ≠ .barred names := by
    unfold Parcel.placed
    cases move : (t.parcel i).job.move with
    | false => exact ⟨rfl, rfl, rfl, rfl, by simp [Parcel.Gone, move], storable, by simp⟩
    | true => exact ⟨rfl, rfl, rfl, rfl, by simp [Parcel.Gone], ⟨storable, move⟩, by simp⟩
  generalize (t.parcel i).placed = b at known ⊢
  obtain ⟨made', noHolds, placed, gave, stays, fits, noFailing, noFailed, noBarred⟩ := known
  refine refile sound shared swaps ?_ (made'.trans made.symm) (fun _ => placed)
    (by simp [before, Parcel.Gone]) stays fits noBarred
    (fun fails => (fails.elim noFailing noFailed).elim) ?_ (shared.nodup_concat holds)
    (shared.logged_concat gave)
  · intro loc outside
    have noGoal : loc ≠ (t.parcel i).place t.top := outside _ (t.parcel i).trail_ne_nil
    have noSide : loc ≠ (t.parcel i).sidePlace t.top := outside _ (t.parcel i).sideTrail_ne_nil
    rw [entries, if_neg noGoal, if_neg noSide]
  · intro names given bytes executable
    simp only [entries, Parcel.under_eq_place, Parcel.under_eq_sidePlace]
    by_cases here : (t.parcel i).trail = names
    · subst here
      rw [if_pos rfl, shared.lies_trail alone before placed noHolds]
      simp [and_comm, eq_comm]
    · rw [if_neg (Ne.symm here)]
      by_cases beside : (t.parcel i).sideTrail = names
      · subst beside
        rw [if_pos rfl]
        exact iff_of_false (by simp) fun lies =>
          shared.not_lies_side alone storable noHolds bytes lies.2
      · rw [if_neg (Ne.symm beside), lies_advance beside fun _ => here]
        · exact shared.files names given bytes executable
        · intro j k differs
          rw [pair_sublist_concat]
          exact or_iff_left fun last => differs last.2

/-- What was there at the start is there still, but for the names that were removed. -/
theorem keeps (sound : t.Sound) (shared : t.Shared d s log) :
    t.start.Keeps d fun loc => ∃ k, (t.parcel k).Gone (s k) ∧ loc = t.origin k := by
  refine ⟨shared.here, fun loc entry spared there _ => ?_⟩
  rw [shared.kept loc, there]
  · intro names given below
    rw [below, sound.empty names given] at there
    cases there
  · intro k gone same
    exact spared ⟨k, gone, same⟩

theorem file_kept (sound : t.Sound) (shared : t.Shared d s log)
    (still : ¬ (t.parcel i).Gone (s i)) : d.at? (t.file i) = t.start.at? (t.file i) := by
  refine shared.kept _ (fun names _ => sound.file_outside i names) fun k gone => ?_
  refine sound.file_ne_origin fun same => still ?_
  rw [same]
  exact gone

theorem source (sound : t.Sound) (shared : t.Shared d s log) (still : ¬ (t.parcel i).Gone (s i)) :
    d.Source (t.parcel i).job.source (t.origin i) (t.file i) := by
  refine (sound.source i).keep (shared.keeps sound) ?_ (shared.file_kept sound still)
  rintro _ ⟨k, gone, rfl⟩
  refine ⟨t.file k, (sound.source k).denotes, fun same => still ?_⟩
  rw [← sound.apart k i same]
  exact gone

theorem remove (sound : t.Sound) (shared : t.Shared d s log) (before : s i = .removing) :
    t.Shared (d.remove (t.origin i)) (advance s i .ended) log := by
  have still : ¬ (t.parcel i).Gone (s i) := by simp [before, Parcel.Gone]
  have source := shared.source sound still
  obtain ⟨name, dir, _, split⟩ := source.place
  have fits := shared.fits i
  rw [before] at fits
  have made : Stage.ended.hasMade = (s i).hasMade := by rw [before]; rfl
  have holds : Stage.ended.holds = (s i).holds := by rw [before]; rfl
  have placed : Stage.ended.hasPlaced = (s i).hasPlaced := by rw [before]; rfl
  have gave : Stage.ended.hasLet = (s i).hasLet := by rw [before]; rfl
  have goneBefore : ∀ k, (t.parcel k).Gone (s k) → (t.parcel k).Gone (advance s i .ended k) := by
    intro k gone
    have other : k ≠ i := by
      rintro rfl
      exact still gone
    rwa [advance_of_ne s _ other]
  have below : ∀ names, (d.remove (t.origin i)).at? (Disk.under t.top names) =
      d.at? (Disk.under t.top names) := fun names =>
    Disk.at?_remove_of_ne d (sound.origin_outside i names).symm
  refine
    { based := shared.based.remove source.denotes fun names => by
        have outside := sound.origin_outside i names.reverse
        rwa [Disk.under, List.reverse_reverse] at outside
      here := shared.here
      kept := fun loc outside others => ?_
      gone := fun k gone => ?_
      fits := shared.fits_advance fits.1
      dirs := fun names given => ?_
      files := fun names given bytes executable => ?_
      nodup := shared.nodup
      logged := fun k => ?_
      failing := shared.failing_advance
        (fun j there => by rwa [advance_same Stage.hasMade made]) (by simp)
      barred := shared.barred_advance
        (fun j there => by rwa [advance_same Stage.hasPlaced placed]) (by simp) }
  · have own : loc ≠ t.origin i := others i (by rw [advance_self]; exact ⟨rfl, fits.2⟩)
    rw [Disk.at?_remove_of_ne d own]
    exact shared.kept loc outside fun k gone => others k (goneBefore k gone)
  · by_cases here : k = i
    · rw [here, split]
      exact Disk.at?_remove_self d name dir
    · rw [advance_of_ne s _ here] at gone
      rw [Disk.at?_remove_of_ne d fun same => here (sound.origin_inj same)]
      exact shared.gone k gone
  · simp only [below, advance_same Stage.hasMade made]
    exact shared.dirs names given
  · simp only [below, Lies, Last, advance_same Stage.holds holds, advance_same Stage.hasPlaced placed]
    exact shared.files names given bytes executable
  · rw [advance_same Stage.hasLet gave]
    exact shared.logged k

end Shared

end Spool.Site
