import Spool.Proofs.Disk.Arrivals
import Spool.Proofs.Disk.Ends

/-!
Copies and renames side by side. A copy goes through the content of a file, links followed at both
ends; a rename takes away the entry that has the one name and gives it the other. For a plain file they
come to the same, except that the source is gone.
-/

namespace Spool.Disk

variable {d e f : Disk} {source dest : String} {own goal loc : Loc} {bytes : ByteArray}
  {executable : Bool} {found free : Option Entry}

/-- What the file holds once the target was opened: nothing, where that is the file itself. -/
def remainder (own goal : Loc) (bytes : ByteArray) : ByteArray :=
  if own = goal then .empty else bytes

theorem remainder_of_ne (apart : own ≠ goal) (bytes : ByteArray) : remainder own goal bytes = bytes :=
  if_neg apart

/-- What is needed of both paths for a copy. -/
structure Copies (d : Disk) (source dest : String) (own goal : Loc) (bytes : ByteArray)
    (executable : Bool) : Prop where
  found : d.locate .existing source = .ok (own, some (.file bytes executable))
  there : d.at? own = some (.file bytes executable)
  aimed : d.locate .creating dest = .ok (goal, d.at? goal)
  opens : d.Open goal

namespace Copies

theorem of_located (formed : d.Formed)
    (found : d.locate .existing source = .ok (own, some (.file bytes executable)))
    (aimed : d.locate .creating dest = .ok (goal, free)) :
    d.Copies source dest own goal bytes executable := by
  obtain ⟨opens, same⟩ := open_of_locate formed aimed
  refine ⟨found, ?_, same ▸ aimed, opens⟩
  exact ((found_of_locate found).resolve_left fun isDir => by cases isDir).symm

variable (copies : d.Copies source dest own goal bytes executable)
include copies

theorem copy_eq :
    d.copy source dest = (d.put goal (.file (remainder own goal bytes) executable), .ok ()) := by
  have target : ∃ old, d.target dest = .ok (goal, old) := by
    unfold target
    rw [copies.aimed]
    cases d.at? goal with
    | none => exact ⟨_, rfl⟩
    | some entry => cases entry <;> exact ⟨_, rfl⟩
  obtain ⟨old, target⟩ := target
  unfold copy remainder
  simp only [copies.found, target]
  by_cases same : own = goal
  · rw [if_pos same, same, at?_put d copies.opens.ne_nil]
    simp only [put_put]
  · rw [if_neg same, at?_put_of_ne d _ same, copies.there]
    simp only [put_put]

theorem swaps (bytes : ByteArray) (executable : Bool) :
    d.Swaps (d.put goal (.file bytes executable)) :=
  copies.opens.swaps_put bytes executable

theorem keeps (bytes : ByteArray) (executable : Bool) :
    d.Keeps (d.put goal (.file bytes executable)) fun _ => False :=
  (copies.swaps bytes executable).steady.keeps _

end Copies

theorem copy_cases (formed : d.Formed) (source dest : String) :
    (∃ cause, d.copy source dest = (d, .error cause)) ∨
      ∃ own goal bytes executable, d.Copies source dest own goal bytes executable := by
  unfold copy
  split
  · exact .inl ⟨_, rfl⟩
  · next own bytes executable found =>
    cases aimed : d.locate .creating dest with
    | error cause =>
      have lost : d.target dest = .error cause := by simp only [target, aimed]
      exact .inl ⟨cause, by simp only [lost]⟩
    | ok spot =>
      obtain ⟨goal, free⟩ := spot
      exact .inr ⟨own, goal, bytes, executable, .of_located formed found aimed⟩
  · exact .inl ⟨_, rfl⟩

theorem copies_of_copy (formed : d.Formed) (copied : d.copy source dest = (e, .ok ())) :
    ∃ own goal bytes executable, d.Copies source dest own goal bytes executable ∧
      e = d.put goal (.file (remainder own goal bytes) executable) := by
  rcases copy_cases formed source dest with ⟨_, failed⟩ | ⟨own, goal, bytes, executable, copies⟩
  · rw [failed] at copied
    cases copied
  · rw [copies.copy_eq] at copied
    cases copied
    exact ⟨own, goal, bytes, executable, copies, rfl⟩

/-- What a copy has done. A file that was copied onto itself is empty now. -/
structure Copied (d e : Disk) (source dest : String) (own goal : Loc) (bytes : ByteArray) : Prop where
  /-- What the file that the source leads to held before. -/
  held : ∃ executable, d.at? own = some (.file bytes executable)
  before : ∀ content, d.read source = .ok content → content = bytes
  source : ∃ executable, e.locate .existing source =
    .ok (own, some (.file (remainder own goal bytes) executable))
  dest : ∃ executable, e.locate .existing dest =
    .ok (goal, some (.file (remainder own goal bytes) executable))
  others : ∀ loc entry, loc ≠ goal → d.at? loc = some entry → e.at? loc = some entry

theorem Copies.copied (copies : d.Copies source dest own goal bytes executable) :
    d.Copied (d.put goal (.file (remainder own goal bytes) executable)) source dest own goal bytes := by
  have keeps := copies.keeps (remainder own goal bytes) executable
  have placed := at?_put d copies.opens.ne_nil (.file (remainder own goal bytes) executable)
  have still : (d.put goal (.file (remainder own goal bytes) executable)).at? own =
      some (.file (remainder own goal bytes) executable) := by
    by_cases same : own = goal
    · rw [same, at?_put d copies.opens.ne_nil]
    · rw [at?_put_of_ne d _ same, copies.there, remainder_of_ne same]
  refine ⟨⟨executable, copies.there⟩, fun content read => ?_,
    ⟨executable, locate_lands keeps still (by simp) copies.found⟩,
    ⟨executable, locate_lands keeps placed copies.opens.1.1 copies.aimed⟩,
    fun loc entry other there => (at?_put_of_ne d _ other).trans there⟩
  simp only [Disk.read, copies.found] at read
  exact (Except.ok.inj read).symm

theorem Copied.of_grows (copied : e.Copied f source dest own goal bytes) (grows : d.Grows e) :
    d.Copied f source dest own goal bytes := by
  refine ⟨?_, fun content read => ?_, copied.source, copied.dest, fun loc entry other there =>
    copied.others loc entry other (grows.kept loc entry there)⟩
  · obtain ⟨executable, there⟩ := copied.held
    exact ⟨executable, grows.file_before there⟩
  · refine copied.before content ?_
    unfold Disk.read at read ⊢
    split at read
    · cases read
    · next loc old executable way =>
      have there := (found_of_locate way).resolve_left fun isDir => by cases isDir
      have same := (grows.kept loc _ there.symm).trans there
      rw [Source.locate_of_keeps (grows.steady.keeps fun _ => False) (fun _ => False.elim) way same]
      exact read
    · cases read

section Rename

variable {m n : String} {old new : Loc}

/-- A plain file that is brought to another one, or to a free name, or to a link that leads to one of
these: what a rename and a copy treat alike. -/
structure Movable (d : Disk) (source dest : String) : Prop where
  plain : ∀ place n, d.place source = .ok place → place.name = some n → IsLeaf (d.at? (n :: place.dir))
  through : ∀ place n target, d.place dest = .ok place → place.name = some n →
    d.at? (n :: place.dir) = some (.link target) → ∃ spot, d.locate .creating dest = .ok spot
  apart : ∀ own goal found free, d.locate .existing source = .ok (own, found) →
    d.locate .creating dest = .ok (goal, free) → own ≠ goal

theorem Copies.renamed (formed : d.Formed) (copies : d.Copies source dest own goal bytes executable) :
    ∃ m old n new entry, d.Renamed source dest ⟨old, some m, false⟩ ⟨new, some n, false⟩ m n entry ∧
      d.Creates dest n new goal ∧ d.Source source (m :: old) own := by
  obtain ⟨origin, from'⟩ := source_of_locate copies.found
  obtain ⟨m, old, place, rfl⟩ := from'.place
  obtain ⟨n, new, creates⟩ := creates_of_locate formed copies.aimed
  obtain ⟨entry, there⟩ := Option.ne_none_iff_exists'.mp from'.denotes.ne_none
  have other : entry ≠ .dir := by
    rintro rfl
    exact from'.denotes.ne_dir there
  have allowed := formed.renameFault_eq_none there other (formed.isDir_of_place creates.place)
    creates.free
  exact ⟨m, old, n, new, entry, ⟨place, creates.place, rfl, rfl, from'.short, creates.short, there,
    allowed⟩, creates, from'⟩

theorem keeps_relocate {old new : Loc} (formed : d.Formed) (named : old ≠ []) (away : old ≠ new)
    (goal : new ≠ []) (file : d.at? old = some (.file bytes executable)) :
    d.Keeps (d.relocate old new) (· = new) := by
  have below : ∀ names, names ≠ [] → d.at? (names ++ old) = none := fun names more =>
    formed.none_below more (by rw [file]; simp)
  refine ⟨here_relocate formed.home (by rw [file]; simp) below new,
    fun loc entry other there plain => ?_⟩
  have still : loc ≠ old := by
    rintro rfl
    rw [file] at there
    cases there
    exact plain _ _ rfl
  rw [at?_relocate named away goal below, if_neg other, if_neg still, there]

theorem Keeps.of_put {lost : Loc → Prop} (keeps : d.Keeps e lost) (named : goal ≠ [])
    (bytes : ByteArray) (executable : Bool) :
    (d.put goal (.file bytes executable)).Keeps e lost := by
  refine ⟨keeps.here, fun loc entry spared there plain => keeps.ways loc entry spared ?_ plain⟩
  have off : loc ≠ goal := by
    rintro rfl
    rw [at?_put d named] at there
    cases there
    exact plain _ _ rfl
  rwa [at?_put_of_ne d _ off] at there

/-- A rename succeeds where a copy does. -/
theorem rename_of_copy (formed : d.Formed) (copied : d.copy source dest = (f, .ok ())) :
    ∃ e, d.rename source dest = (e, .ok ()) := by
  obtain ⟨own, goal, bytes, executable, copies, -⟩ := copies_of_copy formed copied
  obtain ⟨m, old, n, new, entry, renamed, -, -⟩ := copies.renamed formed
  exact ⟨_, renamed.eq⟩

namespace Movable

variable (formed : d.Formed) (movable : d.Movable source dest)
include formed movable

/-- A copy succeeds where a rename does. -/
theorem copy_of_rename (renamed : d.rename source dest = (e, .ok ())) :
    ∃ f, d.copy source dest = (f, .ok ()) := by
  rcases rename_cases d source dest with ⟨_, failed⟩ | ⟨origin, place, m, n, entry, allowed, -⟩
  · rw [failed] at renamed
    cases renamed
  obtain ⟨old, name, slash⟩ := origin
  obtain ⟨new, name', slash'⟩ := place
  have oldName := allowed.oldName
  have newName := allowed.newName
  dsimp only at oldName newName
  subst oldName newName
  have leaf := movable.plain _ m allowed.found rfl
  rw [allowed.there] at leaf
  cases entry with
  | dir => exact absurd rfl leaf.1
  | link target => exact absurd rfl (leaf.2 target)
  | file bytes executable =>
    have bare := bare_of_allowed allowed.allowed
    rw [Bool.or_eq_false_iff] at bare
    obtain ⟨rfl, rfl⟩ := bare
    have found := locate_of_place allowed.found allowed.fits allowed.there
    have aimed : ∃ spot, d.locate .creating dest = .ok spot := by
      cases entry : d.at? (n :: new) with
      | none => exact ⟨_, creating_of_place allowed.aimed allowed.short (entry ▸ isLeaf_none)⟩
      | some there =>
        cases there with
        | file _ _ =>
          exact ⟨_, creating_of_place allowed.aimed allowed.short (entry ▸ isLeaf_file ..)⟩
        | link target => exact movable.through _ n target allowed.aimed rfl entry
        | dir =>
          by_cases same : m :: old = n :: new
          · rw [← same, allowed.there] at entry
            cases entry
          · exact absurd entry (file_of_allowed same allowed.allowed).2
    obtain ⟨⟨goal, free⟩, aimed⟩ := aimed
    exact ⟨_, (Copies.of_located formed found aimed).copy_eq⟩

theorem content (copied : d.copy source dest = (f, .ok ()))
    (renamed : d.rename source dest = (e, .ok ())) :
    (∃ bytes, e.read dest = .ok bytes ∧ f.read dest = .ok bytes) ∧ e.exists? source = false := by
  obtain ⟨own, goal, bytes, executable, copies, rfl⟩ := copies_of_copy formed copied
  obtain ⟨m, old, n, new, entry, allowed, creates, from'⟩ := copies.renamed formed
  have apart := movable.apart own goal _ _ copies.found copies.aimed
  have leaf := movable.plain _ m allowed.found rfl
  -- the source has its own name, since no link has it
  obtain ⟨rfl, file⟩ : m :: old = own ∧ d.at? (m :: old) = some (.file bytes executable) := by
    rcases from'.denotes.own_eq with ⟨same, -⟩ | ⟨target, link⟩
    · exact ⟨same, same ▸ copies.there⟩
    · exact absurd link (leaf.2 target)
  have away : m :: old ≠ n :: new := by
    intro same
    rcases creates.own_eq with here | ⟨target, link⟩
    · exact apart (same.trans here)
    · rw [← same, file] at link
      cases link
  have made := allowed.eq
  rw [if_neg away] at made
  rw [made] at renamed
  cases renamed
  have below : ∀ names, names ≠ [] → d.at? (names ++ m :: old) = none := fun names more =>
    formed.none_below more (by rw [file]; simp)
  have entries := at?_relocate (List.cons_ne_nil m old) away (List.cons_ne_nil n new) below
  -- seen from the copy, only the name of the file at the goal has been lost
  have placed := at?_put d copies.opens.ne_nil (.file bytes executable)
  have first := copies.keeps bytes executable
  have denotes := creates.denotes first placed
  have second := (keeps_relocate formed (List.cons_ne_nil m old) away (List.cons_ne_nil n new)
    file).of_put copies.opens.ne_nil bytes executable
  have places : ∀ {path place}, d.place path = .ok place →
      (d.relocate (m :: old) (n :: new)).place path = .ok place := by
    intro path place there
    have between := Source.place_of_keeps first (fun _ => False.elim) there
    exact Source.place_of_keeps second (fun loc gone => ⟨goal, gone ▸ denotes⟩) between
  refine ⟨⟨bytes, ?_, ?_⟩, exists?_of_vacant (places allowed.found) ?_⟩
  · have there : (d.relocate (m :: old) (n :: new)).at? (n :: new) = some (.file bytes executable) := by
      rw [entries, if_pos rfl, file]
    simp only [Disk.read, locate_of_place (places allowed.aimed) allowed.short there]
  · obtain ⟨executable', found⟩ := copies.copied.dest
    rw [remainder_of_ne apart] at found ⊢
    simp only [Disk.read, found]
  · rw [entries, if_neg away, if_pos rfl]

end Movable

end Rename

end Spool.Disk
