import Spool.Proofs.Disk.Files

/-!
Files that can be read, under their own names or by way of links. A name that stands for one file can
be removed without another one being lost.
-/

namespace Spool.Disk

variable {d e : Disk} {links : Nat} {here : Loc} {slash : Bool} {path : String} {loc : Loc}

namespace Denotes

variable {own other : Loc}

theorem own_eq (denotes : d.Denotes own loc) :
    (own = loc ∧ ∃ bytes executable, d.at? own = some (.file bytes executable)) ∨
      ∃ target, d.at? own = some (.link target) := by
  obtain ⟨n, dir, links, bytes, executable, rfl, leads⟩ := denotes
  cases way_of_explore leads with
  | dir _ _ way => cases way
  | file _ entry => exact .inl ⟨rfl, _, _, entry⟩
  | link _ entry _ _ => exact .inr ⟨_, entry⟩

theorem at? (denotes : d.Denotes own loc) :
    ∃ bytes executable, d.at? loc = some (.file bytes executable) := by
  obtain ⟨n, dir, links, bytes, executable, _, leads⟩ := denotes
  rcases (way_of_explore leads).found with impossible | ⟨_, same⟩
  · cases impossible
  · exact ⟨bytes, executable, same.symm⟩

theorem ne_dir (denotes : d.Denotes own loc) : d.at? own ≠ some .dir := by
  rcases denotes.own_eq with ⟨_, _, _, file⟩ | ⟨_, link⟩
  · rw [file]
    simp
  · rw [link]
    simp

theorem ne_none (denotes : d.Denotes own loc) : d.at? own ≠ none := by
  rcases denotes.own_eq with ⟨_, _, _, file⟩ | ⟨_, link⟩
  · rw [file]
    simp
  · rw [link]
    simp

theorem eq_of_file (denotes : d.Denotes own loc) {bytes : ByteArray} {executable : Bool}
    (file : d.at? own = some (.file bytes executable)) : loc = own := by
  rcases denotes.own_eq with ⟨same, _⟩ | ⟨_, link⟩
  · exact same.symm
  · rw [file] at link
    cases link

theorem unique (denotes : d.Denotes own loc) (denotes' : d.Denotes own other) : loc = other := by
  obtain ⟨n, dir, links, bytes, executable, rfl, leads⟩ := denotes
  obtain ⟨_, _, _, _, _, same, leads'⟩ := denotes'
  cases same
  cases explore_unique leads leads'
  rfl

end Denotes

theorem not_long_of_explore {links : Nat} {n : String} {steps : List Step} {spot : Spot}
    (way : d.explore .existing links here slash (.name n :: steps) = .ok spot) :
    ¬ Route.maxName < n.utf8ByteSize := by
  cases way_of_explore way <;> assumption

/-- The path leads to a file, and its last name is at the location `own`. -/
structure Source (d : Disk) (path : String) (own loc : Loc) : Prop where
  file : ∃ bytes executable, d.locate .existing path = .ok (loc, some (.file bytes executable))
  place : ∃ name dir, d.place path = .ok ⟨dir, some name, false⟩ ∧ own = name :: dir
  denotes : d.Denotes own loc

theorem found_of_locate {found : Option Entry} (way : d.locate .existing path = .ok (loc, found)) :
    found = some .dir ∨ found = d.at? loc := by
  obtain ⟨r, _, way⟩ := way_of_locate way
  exact way.found.imp_right And.right

theorem source_of_locate {bytes : ByteArray} {executable : Bool}
    (found : d.locate .existing path = .ok (loc, some (.file bytes executable))) :
    ∃ own, d.Source path own loc := by
  obtain ⟨n, dir, left, slash, place, way⟩ := place_of_found found (by simp)
  obtain ⟨rfl, _⟩ := way.found.resolve_left (by simp)
  exact ⟨n :: dir, ⟨_, _, found⟩, ⟨n, dir, place, rfl⟩, n, dir, left, _, _, rfl, way.explore⟩

namespace Source

variable {own : Loc} {lost : Loc → Prop}

theorem locate_of_keeps (keeps : d.Keeps e lost)
    (ends : ∀ own, lost own → ∃ other, d.Denotes own other ∧ other ≠ loc) {found : Option Entry}
    (way : d.locate .existing path = .ok (loc, found)) (same : e.at? loc = d.at? loc) :
    e.locate .existing path = .ok (loc, found) := by
  obtain ⟨r, read, way⟩ := way_of_locate way
  refine locate_of_way read ?_
  rw [show e.start r = d.start r by simp only [start, keeps.here]]
  exact way.keep keeps (fun own gone => (ends own gone).imp fun _ => And.imp_right .inr) (.inr same)

theorem place_of_keeps (keeps : d.Keeps e lost)
    (ends : ∀ own, lost own → ∃ other, d.Denotes own other) {place : Place}
    (there : d.place path = .ok place) : e.place path = .ok place := by
  obtain ⟨r, read, _, _, way⟩ := way_of_place there
  have still := way.keep keeps
    (fun own gone => (ends own gone).imp fun _ known => ⟨known, .inl rfl⟩) (.inl rfl)
  unfold Disk.place at there ⊢
  simp only [read, show e.start r = d.start r by simp only [start, keeps.here], way.explore,
    still.explore] at there ⊢
  exact there

theorem keep (source : d.Source path own loc) (keeps : d.Keeps e lost)
    (ends : ∀ own, lost own → ∃ other, d.Denotes own other ∧ other ≠ loc)
    (same : e.at? loc = d.at? loc) : e.Source path own loc := by
  obtain ⟨bytes, executable, found⟩ := source.file
  obtain ⟨name, dir, place, split⟩ := source.place
  obtain ⟨n, dir', links, bytes', executable', split', leads⟩ := source.denotes
  refine ⟨⟨bytes, executable, locate_of_keeps keeps ends found same⟩, ⟨name, dir, ?_, split⟩,
    n, dir', links, bytes', executable', split', ?_⟩
  · exact place_of_keeps keeps (fun own gone => (ends own gone).imp fun _ known => known.1) place
  · exact explore_of_keeps keeps
      (fun own gone => (ends own gone).imp fun _ => And.imp_right .inr) leads (.inr same)

theorem unique {own' loc' : Loc} (source : d.Source path own loc)
    (other : d.Source path own' loc') : loc = loc' := by
  obtain ⟨_, _, found⟩ := source.file
  obtain ⟨_, _, found'⟩ := other.file
  cases found.symm.trans found'
  rfl

theorem read_eq (source : d.Source path own loc) {bytes : ByteArray} {executable : Bool}
    (there : d.at? loc = some (.file bytes executable)) : d.read path = .ok bytes := by
  obtain ⟨bytes', executable', found⟩ := source.file
  rcases found_of_locate found with impossible | file
  · cases impossible
  · rw [there] at file
    cases file
    simp only [Disk.read, found]

theorem short {n : String} {dir : Loc} (source : d.Source path (n :: dir) loc) :
    ¬ Route.maxName < n.utf8ByteSize := by
  obtain ⟨_, _, _, _, _, same, leads⟩ := source.denotes
  cases same
  exact not_long_of_explore leads

theorem unlink_eq (source : d.Source path own loc) : d.unlink path = (d.remove own, .ok ()) := by
  obtain ⟨name, dir, place, rfl⟩ := source.place
  have short := source.short
  rcases source.denotes.own_eq with ⟨_, _, _, there⟩ | ⟨_, there⟩ <;>
    simp only [unlink, place, checkName, short, if_false, there, Bool.false_eq_true]

theorem keeps_remove (d : Disk) (own : Loc) : d.Keeps (d.remove own) (· = own) :=
  ⟨rfl, fun _ _ spared there _ => (at?_remove_of_ne d spared).trans there⟩

theorem keep_remove {own' loc' : Loc} (source : d.Source path own loc)
    (denotes : d.Denotes own' loc') (apart : loc' ≠ loc) :
    (d.remove own').Source path own loc := by
  refine source.keep (keeps_remove d own') (fun l gone => ⟨loc', gone ▸ denotes, apart⟩) ?_
  refine at?_remove_of_ne d fun same => ?_
  obtain ⟨bytes, executable, file⟩ := source.denotes.at?
  exact apart (same ▸ denotes.eq_of_file (same ▸ file))

end Source

theorem Based.remove {r : Route} {base own : Loc} (based : d.Based r base)
    (denotes : d.Denotes own loc) (outside : ∀ names, own ≠ names ++ base) :
    (d.remove own).Based r base := by
  have below : ∀ names, (d.remove own).at? (names ++ base) = d.at? (names ++ base) :=
    fun names => at?_remove_of_ne d (outside names).symm
  refine ⟨?_, (below []).trans based.isDir, ?_, ?_⟩
  · exact explore_of_keeps (Source.keeps_remove d own)
      (fun l gone => ⟨loc, gone ▸ denotes, .inl rfl⟩) based.way (.inl rfl)
  · intro names target
    rw [below]
    exact based.linkless names target
  · intro n names
    rw [← List.cons_append, below, below]
    exact based.rooted n names

end Spool.Disk
