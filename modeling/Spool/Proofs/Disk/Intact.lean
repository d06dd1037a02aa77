import Spool.Proofs.Disk.Volumes

/-!
What is left as it was. A file that is written under one of its names, and whose name is then removed
again, is lost under that name; under the others it is what was written.
-/

namespace Spool

namespace Volume

open Disk

variable {u v w : Volume} {part : Option (Loc × ByteArray)} {loc : Loc} {path : String}
  {bytes data : ByteArray}

/-- A name of the file that was written to under the name `stale`, which is gone. -/
structure Spoilt (v w : Volume) (stale : Loc) (data : ByteArray) (loc : Loc) : Prop where
  file : v.disk.hasFile loc
  one : v.areOne stale loc
  left : if loc = stale then w.disk.at? loc = none
    else ∃ executable, w.disk.at? loc = some (.file data executable)

theorem Spoilt.other {stale : Loc} (spoilt : v.Spoilt w stale data loc) (apart : loc ≠ stale) :
    ∃ executable, w.disk.at? loc = some (.file data executable) := by
  have left := spoilt.left
  rwa [if_neg apart] at left

/-- Nothing was lost but the part of an object, and nothing came but directories. -/
structure Intact (v w : Volume) (part : Option (Loc × ByteArray)) : Prop where
  here : w.disk.here = v.disk.here
  kept : ∀ loc entry, v.disk.at? loc = some entry → w.disk.at? loc = some entry ∨
    ∃ stale data, part = some (stale, data) ∧ v.Spoilt w stale data loc
  fresh : ∀ loc, v.disk.at? loc = none → w.disk.at? loc = none ∨ w.disk.at? loc = some .dir

theorem intact_of_grows (grows : v.disk.Grows w.disk) (part : Option (Loc × ByteArray)) :
    v.Intact w part :=
  ⟨grows.here, fun loc entry there => .inl (grows.kept loc entry there), grows.fresh⟩

namespace Intact

theorem file_of_spoilt {stale : Loc} {entry : Entry} (spoilt : v.Spoilt w stale data loc)
    (there : v.disk.at? loc = some entry) : ∃ bytes executable, entry = .file bytes executable := by
  obtain ⟨bytes, executable, file⟩ := hasFile_iff.mp spoilt.file
  exact ⟨bytes, executable, Option.some.inj (there.symm.trans file)⟩

/-- Directories were made before. -/
theorem after (intact : u.Intact w part) (grows : v.disk.Grows u.disk)
    (numbers : u.numbers = v.numbers) : v.Intact w part := by
  refine ⟨intact.here.trans grows.here, fun loc entry there => ?_, fun loc none => ?_⟩
  · refine (intact.kept loc entry (grows.kept loc entry there)).imp_right ?_
    rintro ⟨stale, data, known, spoilt⟩
    obtain ⟨bytes, executable, rfl⟩ := file_of_spoilt spoilt (grows.kept loc entry there)
    exact ⟨stale, data, known, hasFile_iff.mpr ⟨bytes, executable, there⟩,
      areOne_congr numbers stale loc ▸ spoilt.one, spoilt.left⟩
  · rcases grows.fresh loc none with still | made
    · exact intact.fresh loc still
    · rcases intact.kept loc .dir made with stays | ⟨_, _, _, spoilt⟩
      · exact .inr stays
      · obtain ⟨_, _, file⟩ := file_of_spoilt spoilt made
        cases file

/-- A file that is not the stale one can be read as before. -/
theorem read_eq (intact : v.Intact w part) (fresh : ∀ loc found stale data,
    v.disk.locate .existing path = .ok (loc, found) → part = some (stale, data) →
      ¬ v.areOne stale loc)
    (read : v.disk.read path = .ok bytes) : w.disk.read path = .ok bytes := by
  unfold Disk.read at read
  split at read
  · cases read
  · next loc _ executable found =>
    cases read
    have there := (found_of_locate found).resolve_left fun isDir => by cases isDir
    have keeps : v.disk.Keeps w.disk fun _ => False := by
      refine ⟨intact.here, fun loc entry _ there other => ?_⟩
      rcases intact.kept loc entry there with stays | ⟨_, _, _, spoilt⟩
      · exact stays
      · obtain ⟨_, _, file⟩ := file_of_spoilt spoilt there
        exact absurd file (other _ _)
    have stays := (intact.kept loc _ there.symm).resolve_right fun ⟨stale, data, known, spoilt⟩ =>
      fresh loc _ stale data found known spoilt.one
    simp only [Disk.read, locate_lands keeps stays (by simp) found]
  · cases read

end Intact

/-- What an unlink can take away without links is a file. -/
theorem intact_unlink (linkless : v.disk.Linkless []) (path : String) (data : ByteArray) :
    v.Intact (v.unlink path).1 (some (v.disk.lead path, data)) := by
  change v.Intact (numbering (v.disk.unlink path).1 v.numbers) _
  rcases unlink_cases v.disk path with same | ⟨place, n, there, named, other, gone⟩
  · rw [same, numbering_self]
    exact intact_of_grows (.refl v.disk) _
  · have lead := eq_lead_of_place linkless there named
    rw [gone]
    refine ⟨rfl, fun loc entry before => ?_, fun loc none => .inl ?_⟩
    · by_cases here : loc = n :: place.dir
      · subst here
        have leaf : IsLeaf (v.disk.at? (n :: place.dir)) := ⟨other, linkless.at?_ne _⟩
        have file := hasFile_iff.mpr (leaf.file_of_ne_none (by rw [before]; simp))
        refine .inr ⟨_, data, rfl, file, ?_, ?_⟩
        · rw [lead]
          exact areOne_self v _
        · rw [if_pos lead]
          exact at?_remove_self v.disk n place.dir
      · exact .inl ((at?_remove_of_ne v.disk here).trans before)
    · by_cases here : loc = n :: place.dir
      · rw [here]
        exact at?_remove_self v.disk n place.dir
      · exact (at?_remove_of_ne v.disk here).trans none

section WriteUnlink

variable (formed : v.disk.Formed) (linkless : v.disk.Linkless [])
  (written : v.write path data = (w, .ok ()))
include formed linkless written

theorem unlink_written : (w.unlink path).1.disk = w.disk.remove (v.disk.lead path) := by
  have steady := (write_fills formed linkless written).swaps.steady
  obtain ⟨source, -⟩ := source_of_read (steady.linkless linkless) (read_of_write formed written)
  unfold unlink
  rw [source.unlink_eq, steady.lead]
  rfl

theorem spoilt_of_write (file : v.disk.hasFile loc) (one : v.areOne (v.disk.lead path) loc) :
    v.Spoilt (w.unlink path).1 (v.disk.lead path) data loc := by
  refine ⟨file, one, ?_⟩
  rw [unlink_written formed linkless written]
  split
  · next here =>
    obtain ⟨-, n, dir, split, -⟩ := (write_fills formed linkless written).opens
    rw [here, split]
    exact at?_remove_self w.disk n dir
  · next here =>
    obtain ⟨executable, there⟩ := (write_fills formed linkless written).there
    exact ⟨executable, (at?_remove_of_ne w.disk here).trans (there loc one)⟩

theorem at?_unlink_written (other : ¬ (v.disk.hasFile loc ∧ v.areOne (v.disk.lead path) loc)) :
    (w.unlink path).1.disk.at? loc = v.disk.at? loc := by
  have fills := write_fills formed linkless written
  by_cases here : loc = v.disk.lead path
  · subst here
    obtain ⟨leaf, n, dir, split, -⟩ := fills.opens
    have none : v.disk.at? (v.disk.lead path) = none := Classical.byContradiction fun some =>
      other ⟨hasFile_iff.mpr (leaf.file_of_ne_none some), areOne_self v _⟩
    rw [none, unlink_written formed linkless written, split]
    exact at?_remove_self w.disk n dir
  · have two : ¬ v.areOne (v.disk.lead path) loc := fun one =>
      other ⟨hasFile_of_areOne one here, one⟩
    rw [unlink_written formed linkless written, at?_remove_of_ne w.disk here]
    exact fills.others loc two

/-- Of a name that was written and removed again nothing is left but the file's other names. -/
theorem intact_write_unlink : v.Intact (w.unlink path).1 (some (v.disk.lead path, data)) := by
  refine ⟨?_, fun loc entry before => ?_, fun loc none => .inl ?_⟩
  · rw [unlink_written formed linkless written]
    exact (write_fills formed linkless written).swaps.here
  · by_cases spoilt : v.disk.hasFile loc ∧ v.areOne (v.disk.lead path) loc
    · exact .inr ⟨_, data, rfl, spoilt_of_write formed linkless written spoilt.1 spoilt.2⟩
    · exact .inl ((at?_unlink_written formed linkless written spoilt).trans before)
  · refine (at?_unlink_written formed linkless written fun spoilt => ?_).trans none
    obtain ⟨_, _, file⟩ := hasFile_iff.mp spoilt.1
    rw [none] at file
    cases file

end WriteUnlink

end Volume

end Spool
