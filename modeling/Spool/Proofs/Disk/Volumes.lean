import Spool.Proofs.Disk.Places
import Spool.Push.Program

/-!
Files with several names. What is put under one name is found under the others and nowhere else; and
where each file has one name, a volume is a disk.
-/

namespace Spool

namespace Disk

variable {d : Disk} {loc : Loc}

theorem hasFile_iff : d.hasFile loc ↔ ∃ bytes executable, d.at? loc = some (.file bytes executable) := by
  unfold hasFile
  split
  · next there => exact iff_of_true rfl ⟨_, _, there⟩
  · next other => exact iff_of_false nofun fun ⟨_, _, there⟩ => other _ _ there

end Disk

namespace Volume

variable {u v w : Volume} {loc other : Loc} {path : String} {bytes : ByteArray} {executable : Bool}

theorem numbers_numbering {disk : Disk} {numbers : List (Loc × Nat)}
    (kept : ∀ pair ∈ numbers, disk.hasFile pair.1) : (numbering disk numbers).numbers = numbers :=
  List.filter_eq_self.mpr kept

theorem numbering_self (v : Volume) : numbering v.disk v.numbers = v := by
  obtain ⟨disk, numbers, numbered⟩ := v
  simp only [numbering, mk.injEq, true_and]
  exact numbers_numbering numbered

theorem areOne_iff : v.areOne loc other ↔ other = loc ∨
    ∃ number, v.numbers.lookup loc = some number ∧ v.numbers.lookup other = some number := by
  unfold areOne
  rw [Bool.or_eq_true, beq_iff_eq, eq_comm]
  refine or_congr_right ?_
  cases v.numbers.lookup loc <;> simp

@[simp] theorem areOne_self (v : Volume) (loc : Loc) : v.areOne loc loc :=
  areOne_iff.mpr (.inl rfl)

theorem areOne_congr (same : w.numbers = v.numbers) (loc other : Loc) :
    w.areOne loc other = v.areOne loc other := by
  simp only [areOne, same]

/-- Only a file has other names. -/
theorem hasFile_of_areOne (one : v.areOne loc other) (apart : other ≠ loc) :
    v.disk.hasFile other := by
  obtain ⟨number, -, known⟩ := (areOne_iff.mp one).resolve_left apart
  exact v.numbered _ (Table.mem_of_lookup known)

theorem at?_fill (named : loc ≠ []) (file : Entry) :
    (v.fill loc file).disk.at? other = if v.areOne loc other then some file else v.disk.at? other := by
  cases other with
  | nil =>
    have apart : ¬ v.areOne loc [] := by
      intro one
      obtain ⟨_, _, there⟩ := Disk.hasFile_iff.mp (hasFile_of_areOne one (Ne.symm named))
      cases there
    exact (if_neg apart).symm
  | cons n dir =>
    refine (Table.lookup_map (fun l e => if v.areOne loc l then file else e) _ _).trans ?_
    change ((v.disk.put loc file).at? (n :: dir)).map _ = _
    by_cases same : n :: dir = loc
    · rw [← same, Disk.at?_put_self]
      simp
    · rw [Disk.at?_put_of_ne _ _ same]
      by_cases one : v.areOne loc (n :: dir)
      · obtain ⟨_, _, there⟩ := Disk.hasFile_iff.mp (hasFile_of_areOne one same)
        simp [there, one]
      · simp [one]

theorem numbers_fill (named : loc ≠ []) (bytes : ByteArray) (executable : Bool) :
    (v.fill loc (.file bytes executable)).numbers = v.numbers := by
  refine numbers_numbering fun pair member => Disk.hasFile_iff.mpr ?_
  obtain ⟨old, still, there⟩ := Disk.hasFile_iff.mp (v.numbered pair member)
  change ∃ _ _, (v.fill loc (.file bytes executable)).disk.at? pair.1 = _
  rw [at?_fill named]
  split
  · exact ⟨bytes, executable, rfl⟩
  · exact ⟨old, still, there⟩

theorem swaps_fill (opens : v.disk.Open loc) (bytes : ByteArray) (executable : Bool) :
    v.disk.Swaps (v.fill loc (.file bytes executable)).disk := by
  have entries : ∀ other, (v.fill loc (.file bytes executable)).disk.at? other = _ := fun _ =>
    at?_fill opens.ne_nil (.file bytes executable)
  refine ⟨rfl, fun other => ?_, fun n dir none there => ?_⟩
  · rw [entries]
    split
    · next one =>
      refine .inr ⟨?_, Disk.isLeaf_file bytes executable⟩
      by_cases same : other = loc
      · exact same ▸ opens.1
      · obtain ⟨old, still, there⟩ := Disk.hasFile_iff.mp (hasFile_of_areOne one same)
        exact there ▸ Disk.isLeaf_file old still
    · exact .inl rfl
  · rw [entries] at there
    split at there
    · next one =>
      by_cases same : n :: dir = loc
      · obtain ⟨-, m, around, split, inside⟩ := opens
        cases same.trans split
        exact inside
      · obtain ⟨_, _, file⟩ := Disk.hasFile_iff.mp (hasFile_of_areOne one same)
        rw [none] at file
        cases file
    · exact absurd none there

/-- The file at a location, whatever its names, has come to hold these bytes. -/
structure Fills (v w : Volume) (loc : Loc) (bytes : ByteArray) : Prop where
  opens : v.disk.Open loc
  swaps : v.disk.Swaps w.disk
  numbers : w.numbers = v.numbers
  there : ∃ executable, ∀ other, v.areOne loc other → w.disk.at? other = some (.file bytes executable)
  others : ∀ other, ¬ v.areOne loc other → w.disk.at? other = v.disk.at? other

theorem fills (opens : v.disk.Open loc) (bytes : ByteArray) (executable : Bool) :
    v.Fills (v.fill loc (.file bytes executable)) loc bytes := by
  refine ⟨opens, swaps_fill opens bytes executable, numbers_fill opens.ne_nil bytes executable,
    ⟨executable, fun other one => ?_⟩, fun other off => ?_⟩
  · rw [at?_fill opens.ne_nil, if_pos one]
  · rw [at?_fill opens.ne_nil, if_neg off]

theorem write_cases (formed : v.disk.Formed) (written : v.write path bytes = (w, .ok ())) :
    ∃ loc found, v.disk.locate .creating path = .ok (loc, found) ∧ v.Fills w loc bytes := by
  unfold write Disk.target at written
  cases way : v.disk.locate .creating path with
  | error cause => rw [way] at written; cases written
  | ok spot =>
    obtain ⟨loc, found⟩ := spot
    have opens := (Disk.open_of_locate formed way).1
    rw [way] at written
    refine ⟨loc, found, rfl, ?_⟩
    cases found with
    | none => cases written; exact fills opens bytes false
    | some entry => cases entry <;> (cases written; exact fills opens bytes _)

theorem read_of_write (formed : v.disk.Formed) (written : v.write path bytes = (w, .ok ())) :
    w.disk.read path = .ok bytes := by
  obtain ⟨loc, found, way, fills⟩ := write_cases formed written
  obtain ⟨executable, there⟩ := fills.there
  obtain ⟨opens, same⟩ := Disk.open_of_locate formed way
  have there := there loc (areOne_self v loc)
  simp only [Disk.read, Disk.locate_lands (fills.swaps.steady.keeps _) there (same ▸ opens.1.1) way]

theorem write_fills (formed : v.disk.Formed) (linkless : v.disk.Linkless [])
    (written : v.write path bytes = (w, .ok ())) : v.Fills w (v.disk.lead path) bytes := by
  obtain ⟨loc, found, way, fills⟩ := write_cases formed written
  rwa [Disk.eq_lead_of_locate linkless way] at fills

theorem write_failed {cause : IoError} (written : v.write path bytes = (w, .error cause)) : w = v := by
  unfold write at written
  split at written <;> cases written
  rfl

theorem copy_failed {source dest : String} {cause : IoError}
    (copied : v.copy source dest = (w, .error cause)) : w = v := by
  unfold copy at copied
  split at copied
  · cases copied; rfl
  · split at copied
    · cases copied; rfl
    · dsimp only at copied
      split at copied <;> cases copied
  · cases copied; rfl

theorem rename_cases (v : Volume) (old new : String) :
    (∃ cause, v.disk.passage old new = .error cause ∧ v.rename old new = (v, .error cause)) ∨
      ∃ ends, v.disk.passage old new = .ok ends ∧ (v.rename old new = (v, .ok ()) ∨
        ∃ numbers, v.rename old new = (numbering (v.disk.rename old new).1 numbers, .ok ())) := by
  unfold rename
  split
  · next cause refused => exact .inl ⟨cause, refused, rfl⟩
  · next origin goal passes =>
    refine .inr ⟨_, passes, ?_⟩
    rw [Disk.rename_of_passage passes]
    split
    · exact .inl rfl
    · next two =>
      have apart : origin ≠ goal := by
        rintro rfl
        exact two (areOne_self v origin)
      rw [if_neg apart]
      exact .inr ⟨_, rfl⟩

theorem rename_failed {old new : String} {cause : IoError}
    (renamed : v.rename old new = (w, .error cause)) : w = v := by
  unfold rename at renamed
  split at renamed
  · cases renamed; rfl
  · split at renamed <;> cases renamed

/-- A file that was renamed can only have taken the place of another. -/
theorem rename_keeps {old new : String} (formed : v.disk.Formed) (linkless : v.disk.Linkless [])
    (there : v.disk.at? (v.disk.lead old) = some (.file bytes executable))
    (renamed : v.rename old new = (w, .ok ())) : v.disk.Steady w.disk ∧
      ∀ loc, loc ≠ v.disk.lead old → v.disk.hasFile loc → w.disk.hasFile loc := by
  rcases v.rename_cases old new with ⟨_, _, failed⟩ | ⟨_, passes, same | ⟨_, moved⟩⟩
  · rw [failed] at renamed
    cases renamed
  · cases same.symm.trans renamed
    exact ⟨.refl v.disk, fun _ _ => id⟩
  · cases moved.symm.trans renamed
    have done : v.disk.rename old new = ((v.disk.rename old new).1, .ok ()) := by
      rw [Disk.rename_of_passage passes]
    obtain ⟨spares, found⟩ := Disk.rename_sets formed linkless there done
    have arrived := (Disk.found_of_locate found).resolve_left fun isDir => by cases isDir
    refine ⟨spares.steady, fun loc apart file => Disk.hasFile_iff.mpr ?_⟩
    by_cases here : loc = v.disk.lead new
    · exact ⟨bytes, executable, here ▸ arrived.symm⟩
    · obtain ⟨old, still, file⟩ := Disk.hasFile_iff.mp file
      exact ⟨old, still, spares.files loc (not_or.mpr ⟨here, apart⟩) old still file⟩

/-- What a call answers does not depend on the names that files have. -/
theorem reply_act (v : Volume) (action : Action) : (v.act action).2 = (v.disk.act action).2 := by
  cases action with
  | makeDirs path => rfl
  | unlink path => rfl
  | write path bytes =>
    simp only [act, write, Disk.act, Disk.write]
    cases v.disk.target path <;> rfl
  | rename old new =>
    rcases v.rename_cases old new with ⟨_, refused, same⟩ | ⟨_, passes, same | ⟨_, moved⟩⟩
    · simp only [act, same, Disk.act, Disk.rename, refused]
    · simp only [act, same, Disk.act, Disk.rename_of_passage passes]
    · simp only [act, moved, Disk.act, Disk.rename_of_passage passes]
  | copy source dest =>
    simp only [act, copy, Disk.act, Disk.copy]
    cases v.disk.locate .existing source with
    | error cause => rfl
    | ok spot =>
      obtain ⟨origin, found⟩ := spot
      cases found with
      | none => rfl
      | some entry =>
        cases entry with
        | dir | link target => rfl
        | file old executable =>
          cases v.disk.target dest with
          | error cause => rfl
          | ok target =>
            dsimp only
            split <;> split <;> rfl

section OfDisk

variable (d : Disk)

@[simp] theorem disk_ofDisk : (ofDisk d).disk = d := rfl

theorem areOne_ofDisk (loc other : Loc) : (ofDisk d).areOne loc other = (loc == other) :=
  Bool.or_false _

theorem fill_ofDisk (loc : Loc) (file : Entry) : (ofDisk d).fill loc file = ofDisk (d.put loc file) := by
  refine congrArg (fun entries => ofDisk { d with entries })
    ((List.map_congr_left fun pair member => ?_).trans (List.map_id _))
  obtain ⟨l, e⟩ := pair
  simp only [areOne_ofDisk, id]
  split
  · next same =>
    rw [← eq_of_beq same] at member ⊢
    rcases List.mem_cons.mp member with first | rest
    · exact first.symm
    · simp at rest
  · rfl

/-- Where each file has one name, the calls do what they do to a disk. -/
theorem act_ofDisk (action : Action) :
    (ofDisk d).act action = (ofDisk (d.act action).1, (d.act action).2) := by
  cases action with
  | makeDirs path => rfl
  | unlink path => rfl
  | write path bytes =>
    simp only [act, write, Disk.act, Disk.write, disk_ofDisk]
    cases d.target path with
    | error cause => rfl
    | ok target => exact Prod.ext (fill_ofDisk d _ _) rfl
  | rename old new =>
    simp only [act, rename, Disk.act, Disk.rename, disk_ofDisk]
    cases d.passage old new with
    | error cause => rfl
    | ok ends =>
      simp only [areOne_ofDisk, beq_iff_eq]
      split <;> rfl
  | copy source dest =>
    simp only [act, copy, Disk.act, Disk.copy, disk_ofDisk]
    cases d.locate .existing source with
    | error cause => rfl
    | ok spot =>
      obtain ⟨origin, found⟩ := spot
      cases found with
      | none => rfl
      | some entry =>
        cases entry with
        | dir | link target => rfl
        | file old executable =>
          cases d.target dest with
          | error cause => rfl
          | ok target =>
            simp only [fill_ofDisk, disk_ofDisk]
            generalize ((d.put target.1 (.file .empty executable)).at? origin) = found
            cases found with
            | none => rfl
            | some entry => cases entry <;> rfl

end OfDisk

end Volume

/-- Where each file has one name, a program runs as it does on a disk. -/
theorem Program.runOn_ofDisk {σ ρ : Type} (store : KeyStore σ) (w : World σ) (p : Program ρ) :
    p.runOn store ⟨.ofDisk w.disk, w.keys⟩ =
      (⟨.ofDisk (p.run store w).1.disk, (p.run store w).1.keys⟩, (p.run store w).2) := by
  induction p generalizing w with
  | done result => rfl
  | read path next ih => exact ih _ w
  | size path next ih => exact ih _ w
  | act action next ih =>
    simp only [runOn, run, Volume.act_ofDisk]
    exact ih _ { w with disk := (w.disk.act action).1 }
  | put key value next ih => exact ih _ { w with keys := (store.put w.keys key value).1 }

end Spool
