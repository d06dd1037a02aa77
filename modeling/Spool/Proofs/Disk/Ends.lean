import Spool.Proofs.Disk.Prepared

/-!
Where ways end. A way on which a file may be created ends at a free name or at a file, in a directory;
and the file that is put there is found under the same path, whatever links lead to it.
-/

namespace Spool.Disk

variable {d e : Disk} {aim : Aim} {links : Nat} {here loc : Loc} {slash : Bool} {path : String}
  {bytes : ByteArray} {executable : Bool} {found : Option Entry}

/-- A free name, or a file, in a directory. -/
def Open (d : Disk) (loc : Loc) : Prop :=
  IsLeaf (d.at? loc) ∧ ∃ n dir, loc = n :: dir ∧ d.at? dir = some .dir

theorem open_of_way (formed : d.Formed) {steps : List Step} {spot : Spot}
    (inside : d.at? here = some .dir) (way : d.Way .creating links here slash steps spot) :
    d.Open spot.1 ∧ spot.2 = d.at? spot.1 := by
  induction way with
  | here existing => cases existing
  | stay _ ih => exact ih inside
  | up _ ih => exact ih (formed.tail inside)
  | dir _ entry _ ih => exact ih entry
  | file _ entry => exact ⟨⟨entry ▸ isLeaf_file .., _, _, rfl, inside⟩, entry.symm⟩
  | free _ _ entry => exact ⟨⟨entry ▸ isLeaf_none, _, _, rfl, inside⟩, entry.symm⟩
  | link _ _ _ _ ih =>
    refine ih ?_
    split
    · rfl
    · exact inside

theorem open_of_locate (formed : d.Formed) (way : d.locate .creating path = .ok (loc, found)) :
    d.Open loc ∧ found = d.at? loc := by
  obtain ⟨r, _, way⟩ := way_of_locate way
  exact open_of_way formed (formed.start r) way

namespace Open

theorem ne_nil (opens : d.Open loc) : loc ≠ [] := by
  obtain ⟨-, n, dir, rfl, -⟩ := opens
  exact List.cons_ne_nil n dir

theorem swaps_put (opens : d.Open loc) (bytes : ByteArray) (executable : Bool) :
    d.Swaps (d.put loc (.file bytes executable)) := by
  obtain ⟨leaf, n, dir, split, inside⟩ := opens
  exact Disk.swaps_put bytes executable split inside leaf

end Open

theorem at?_put (d : Disk) (named : loc ≠ []) (entry : Entry) :
    (d.put loc entry).at? loc = some entry := by
  obtain ⟨n, dir, rfl⟩ := List.exists_cons_of_ne_nil named
  exact at?_put_self d entry

/-- A file that is put where a way ended is found on the same way. -/
theorem Way.lands (keeps : d.Keeps e fun _ => False) {steps : List Step} {spot : Spot}
    (there : e.at? spot.1 = some (.file bytes executable)) (other : spot.2 ≠ some .dir)
    (way : d.Way aim links here slash steps spot) :
    e.Way .existing links here slash steps (spot.1, some (.file bytes executable)) := by
  induction way with
  | here _ => exact absurd rfl other
  | stay _ ih => exact .stay (ih there other)
  | up _ ih => exact .up (ih there other)
  | dir short entry _ ih =>
    exact .dir short (keeps.ways _ _ not_false entry fun _ _ => by simp) (ih there other)
  | file short _ => exact .file short there
  | free _ short _ => exact .file short there
  | link short entry _ _ ih =>
    exact .link short (keeps.ways _ _ not_false entry fun _ _ => by simp) nofun (ih there other)

theorem locate_lands (keeps : d.Keeps e fun _ => False)
    (there : e.at? loc = some (.file bytes executable)) (other : found ≠ some .dir)
    (way : d.locate aim path = .ok (loc, found)) :
    e.locate .existing path = .ok (loc, some (.file bytes executable)) := by
  obtain ⟨r, read, way⟩ := way_of_locate way
  refine locate_of_way read ?_
  rw [show e.start r = d.start r by simp only [start, keeps.here]]
  exact way.lands keeps there other

section Place

variable {dir : Loc} {n : String}

theorem locate_eq_of_place (place : d.place path = .ok ⟨dir, some n, slash⟩) :
    ∃ left, ∀ aim, d.locate aim path = report (d.explore aim left dir slash [.name n]) := by
  obtain ⟨r, read, bare, last, way⟩ := way_of_place place
  obtain ⟨left, goesOn⟩ := explore_append way.explore
  refine ⟨left, fun aim => ?_⟩
  simp only [locate, read]
  rw [last n rfl, goesOn _ _ _ (List.cons_ne_nil _ _), bare]

theorem locate_of_place (place : d.place path = .ok ⟨dir, some n, false⟩)
    (short : ¬ Route.maxName < n.utf8ByteSize)
    (there : d.at? (n :: dir) = some (.file bytes executable)) :
    d.locate .existing path = .ok (n :: dir, some (.file bytes executable)) := by
  obtain ⟨left, locate⟩ := locate_eq_of_place place
  rw [locate, explore_file short there]
  rfl

theorem exists?_of_vacant (place : d.place path = .ok ⟨dir, some n, slash⟩)
    (vacant : d.at? (n :: dir) = none) : d.exists? path = false := by
  obtain ⟨left, locate⟩ := locate_eq_of_place place
  unfold exists? status?
  rw [locate, explore_eq, exploreWith_name, vacant]
  by_cases long : Route.maxName < n.utf8ByteSize
  · rw [if_pos long]
    rfl
  · rw [if_neg long]
    rfl

/-- A file can be created at a place without a slash behind it, unless a directory or a link is there. -/
theorem creating_of_place (place : d.place path = .ok ⟨dir, some n, false⟩)
    (short : ¬ Route.maxName < n.utf8ByteSize) (leaf : IsLeaf (d.at? (n :: dir))) :
    d.locate .creating path = .ok (n :: dir, d.at? (n :: dir)) := by
  obtain ⟨left, locate⟩ := locate_eq_of_place place
  rw [locate]
  cases entry : d.at? (n :: dir) with
  | none => simp only [explore_free short entry, report]
  | some old =>
    cases old with
    | dir => exact absurd entry leaf.1
    | file old executable => simp only [explore_file short entry, report]
    | link target => exact absurd entry (leaf.2 target)

/-- The place of a path where a file can be created. Only a link there leads elsewhere. -/
structure Creates (d : Disk) (path : String) (n : String) (dir loc : Loc) : Prop where
  place : d.place path = .ok ⟨dir, some n, false⟩
  short : ¬ Route.maxName < n.utf8ByteSize
  free : d.at? (n :: dir) ≠ some .dir
  own_eq : n :: dir = loc ∨ ∃ target, d.at? (n :: dir) = some (.link target)
  /-- A file that is put there gets this name, or a link to it has this name. -/
  denotes : ∀ {e bytes executable}, d.Keeps e (fun _ => False) →
    e.at? loc = some (.file bytes executable) → e.Denotes (n :: dir) loc

theorem creates_of_locate (formed : d.Formed) (way : d.locate .creating path = .ok (loc, found)) :
    ∃ n dir, d.Creates path n dir loc := by
  obtain ⟨opens, same⟩ := open_of_locate formed way
  have other : found ≠ some .dir := fun isDir => opens.1.1 (same ▸ isDir)
  obtain ⟨n, dir, left, slash, place, ends⟩ := place_of_found way other
  have bare : slash = false := ends.bare
  subst bare
  have lands : ∀ {e bytes executable}, d.Keeps e (fun _ => False) →
      e.at? loc = some (.file bytes executable) → e.Denotes (n :: dir) loc :=
    fun keeps there => ⟨n, dir, left, _, _, rfl, (ends.lands keeps there other).explore⟩
  refine ⟨n, dir, ?_⟩
  cases ends with
  | dir _ _ ends => cases ends with
    | here existing => cases existing
  | file short entry => exact ⟨place, short, by rw [entry]; simp, .inl rfl, lands⟩
  | free _ short entry => exact ⟨place, short, by rw [entry]; simp, .inl rfl, lands⟩
  | link short entry _ _ => exact ⟨place, short, by rw [entry]; simp, .inr ⟨_, entry⟩, lands⟩

end Place

end Spool.Disk
