import Spool.Proofs.Definition
import Spool.Proofs.Push.Addressed
import Spool.Proofs.Push.Confined
import Spool.Proofs.Push.Copying

/-!
The check whether something is stored, beside what stores it. The check puts the path it is given
behind the base as it is, a push first drops the slashes at its beginning; both paths lead to the
same, except that the first may be too long. So what a push has stored is found.
-/

namespace Spool

namespace Text

theorem dropSlashes_append (cs : List Char) : ∃ n, cs = List.replicate n '/' ++ dropSlashes cs := by
  induction cs with
  | nil => exact ⟨0, rfl⟩
  | cons c cs ih =>
    obtain ⟨n, split⟩ := ih
    by_cases slash : c = '/'
    · refine ⟨n + 1, ?_⟩
      have dropped : dropSlashes (c :: cs) = dropSlashes cs := by simp [dropSlashes, slash]
      rw [dropped, List.replicate_succ, List.cons_append, ← split, slash]
    · exact ⟨0, by simp [dropSlashes, slash]⟩

end Text

namespace Presence

open Directory Disk Route

variable {base path : String} {d e : Disk} {aim : Aim}

def beneath (base path : String) : String :=
  String.ofList (base.toList ++ '/' :: path.toList)

/-- The text that is looked up for a path can be passed to the system, as far as its length goes. -/
def Fits (base path : String) : Prop :=
  (beneath base path).utf8ByteSize < maxPath

/-- Both texts are alike but for slashes behind a slash. -/
theorem texts_alike (described : base ≠ "") (path : String) : ∃ front n,
    front.getLast? = some '/' ∧
      (destination base path).toList = front ++ Text.dropSlashes path.toList ∧
      (beneath base path).toList =
        front ++ (List.replicate n '/' ++ Text.dropSlashes path.toList) := by
  have some : base.toList ≠ [] := fun none => described (String.toList_injective none)
  obtain ⟨n, split⟩ := Text.dropSlashes_append path.toList
  rw [toList_destination, join_plain (head_dropSlashes _), beneath, String.toList_ofList]
  by_cases slash : base.toList.getLast? = .some '/'
  · refine ⟨base.toList, n + 1, slash, if_pos (.inr slash), ?_⟩
    rw [List.replicate_succ, List.cons_append, ← split]
  · refine ⟨base.toList ++ ['/'], n, List.getLast?_concat, ?_, ?_⟩
    · rw [if_neg (by simp [some, slash]), List.append_assoc, List.singleton_append]
    · rw [← split, List.append_assoc, List.singleton_append]

theorem ofText_beneath (described : base ≠ "") (path : String) :
    ofText (beneath base path).toList = ofText (destination base path).toList := by
  have steps : (ofText (beneath base path).toList).steps =
      (ofText (destination base path).toList).steps := by
    rw [beneath, String.toList_ofList, steps_append, steps_destination]
  obtain ⟨front, n, last, short, long⟩ := texts_alike described path
  rw [short, long] at steps ⊢
  have absolute : (front ++ (List.replicate n '/' ++ Text.dropSlashes path.toList)).head? =
      (front ++ Text.dropSlashes path.toList).head? := by
    cases front with
    | nil => cases last
    | cons c front => rfl
  have slash : (front ++ (List.replicate n '/' ++ Text.dropSlashes path.toList)).getLast? =
      (front ++ Text.dropSlashes path.toList).getLast? := by
    rw [List.getLast?_append, List.getLast?_append, List.getLast?_append, last]
    cases (Text.dropSlashes path.toList).getLast? with
    | some c => rfl
    | none =>
      cases n with
      | zero => rfl
      | succ n =>
        rw [List.replicate_succ', List.getLast?_concat]
        rfl
  simp only [ofText] at steps ⊢
  rw [absolute, steps, slash]

theorem isUnpassable_beneath (described : base ≠ "") (path : String) :
    isUnpassable (beneath base path) = isUnpassable (destination base path) := by
  obtain ⟨front, n, -, short, long⟩ := texts_alike described path
  simp [isUnpassable, short, long]

theorem size_destination_le (described : base ≠ "") (path : String) :
    (destination base path).utf8ByteSize ≤ (beneath base path).utf8ByteSize := by
  obtain ⟨front, n, -, short, long⟩ := texts_alike described path
  rw [← String.ofList_toList (s := destination base path), short,
    ← String.ofList_toList (s := beneath base path), long]
  simp only [String.ofList_append, String.utf8ByteSize_append]
  omega

theorem read_beneath (described : base ≠ "") (fits : Fits base path) :
    Route.read (beneath base path) = Route.read (destination base path) := by
  have fits' : ¬ maxPath ≤ (destination base path).utf8ByteSize :=
    Nat.not_le.mpr (Nat.lt_of_le_of_lt (size_destination_le described path) fits)
  have some : (beneath base path).toList ≠ [] ∧ (destination base path).toList ≠ [] := by
    obtain ⟨front, n, last, short, long⟩ := texts_alike described path
    have begun : front ≠ [] := by
      rintro rfl
      cases last
    rw [short, long]
    exact ⟨List.append_ne_nil_of_left_ne_nil begun _, List.append_ne_nil_of_left_ne_nil begun _⟩
  unfold Route.read
  rw [isUnpassable_beneath described, if_neg some.1, if_neg some.2, if_neg (Nat.not_le.mpr fits),
    if_neg fits', ofText_beneath described]

theorem inDirectory_iff (described : base ≠ "") (d : Disk) (path : String) :
    inDirectory base d path = true ↔
      Fits base path ∧ d.exists? (destination base path) = true := by
  change d.exists? (beneath base path) = true ↔ _
  by_cases fits : Fits base path
  · have same : d.exists? (beneath base path) = d.exists? (destination base path) := by
      simp only [exists?, status?, locate, read_beneath described fits]
    simp only [same, fits, true_and]
  · have lost : ∃ cause, Route.read (beneath base path) = .error cause := by
      unfold Route.read
      split
      · exact ⟨_, rfl⟩
      · split
        · exact ⟨_, rfl⟩
        · exact ⟨_, if_pos (Nat.not_lt.mp fits)⟩
    obtain ⟨cause, lost⟩ := lost
    have missing : d.exists? (beneath base path) = false := by
      simp only [exists?, status?, locate, lost, Option.isSome_none]
    simp only [missing, fits, Bool.false_eq_true, false_and]

theorem read_of_definition {processors capacity : Nat} {text : String} {definition : Definition}
    (read : Definition.read processors text capacity = .ok definition)
    (driver : definition.driver = .directory) (described : definition.description ≠ "") :
    Presence.read text = .ok (.directory definition.description) := by
  obtain ⟨-, ⟨named, fields⟩, -⟩ := Definition.read_eq_ok_iff.mp read
  have cut := Text.cutAt_append named.apart.1 definition.description.toList
  rw [driver] at named
  simp only [Presence.read, fields.splitOn, List.headD_cons, Definition.toList_driverField, cut]
  split
  · next none => cases none
  · next name none =>
    obtain ⟨-, empty⟩ := Prod.mk.inj (Option.some.inj none)
    exact absurd (String.toList_injective empty) described
  · next name description _ same =>
    obtain ⟨rfl, rfl⟩ := Prod.mk.inj (Option.some.inj same)
    simp only [String.ofList_toList, Driver.ofName?_eq_some_iff.mpr named]

end Presence

namespace Directory

open Disk

variable {σ : Type} {keys : KeyStore σ} {w e : World σ} {base hash : String}

theorem exists_of_transfer {job : Transfer} (formed : w.disk.Formed) (asked : job.move = false)
    (ended : (transfer base job).run keys w = (e, .ok hash)) :
    e.disk.exists? (destination base job.remote) = true := by
  have grows := makeAround_grows formed (destination base job.remote)
  simp only [run_transfer, asked, Bool.false_eq_true, if_false] at ended
  generalize w.disk.makeAround (destination base job.remote) = made at grows ended
  obtain ⟨d, reply⟩ := made
  cases reply with
  | error cause => cases ended
  | ok =>
    obtain ⟨_, copied, rfl⟩ := answered_ok ended
    obtain ⟨own, goal, bytes, executable, copies, put⟩ :=
      copies_of_copy (grows.steady.formed formed) copied
    obtain ⟨_, found⟩ := copies.copied.dest
    rw [← put] at found
    simp only [exists?, status?, found, Option.isSome_some]

end Directory

namespace Disk

open Directory

variable {d e f : Disk} {beside dest base key : String} {bytes : ByteArray} {top : Loc}

theorem Set.keeps_back {loc : Loc} (set : d.Set e loc bytes) : e.Keeps d fun _ => False := by
  obtain ⟨executable, there⟩ := set.there
  refine ⟨set.swaps.steady.here.symm, fun other entry _ found plain => ?_⟩
  have off : other ≠ loc := by
    rintro rfl
    rw [there] at found
    cases found
    exact plain _ _ rfl
  rw [← set.others other off, found]

theorem exists_of_rename (formed : d.Formed) (written : d.write beside bytes = (e, .ok ()))
    (renamed : e.rename beside dest = (f, .ok ()))
    (plain : ∀ own, d.Lies dest own ∨ d.Lies beside own →
      ∀ target, d.at? own ≠ some (.link target)) :
    f.exists? dest = true := by
  obtain ⟨loc, found, way, set⟩ := write_cases formed written
  have steady := set.swaps.steady
  have back : ∀ {path place}, e.place path = .ok place → d.place path = .ok place :=
    fun there => Source.place_of_keeps set.keeps_back (fun _ => False.elim) there
  rcases rename_cases e beside dest with
    ⟨_, failed⟩ | ⟨⟨old, name, slash⟩, ⟨new, name', slash'⟩, m, n, entry, allowed, -⟩
  · rw [failed] at renamed
    cases renamed
  · cases allowed.oldName
    cases allowed.newName
    obtain ⟨executable, file⟩ := file_of_write formed written allowed.found
      (plain _ (.inr ⟨m, old, slash, back allowed.found, rfl⟩))
    cases allowed.there.symm.trans file
    have bare := (Bool.or_eq_false_iff.mp (bare_of_allowed allowed.allowed)).2
    have free : ∀ target, e.at? (n :: new) ≠ some (.link target) := fun target link =>
      plain _ (.inl ⟨n, new, slash', back allowed.aimed, rfl⟩) target ((steady.links _ _).mp link)
    obtain ⟨receives, there⟩ := allowed.moved (steady.formed formed) free
    rw [renamed] at receives there
    have place := Source.place_of_keeps (receives.swaps.steady.keeps fun _ => False)
      (fun _ => False.elim) allowed.aimed
    dsimp only at bare
    rw [bare] at place
    simp only [exists?, status?, locate_of_place place allowed.short there, Option.isSome_some]

/-- No link has the name of the path or of its partial object, once the directory around is made. -/
def Unlinked (d : Disk) (dest : String) : Prop :=
  ∀ own, (d.makeAround dest).1.Lies dest own ∨ (d.makeAround dest).1.Lies (partialName dest) own →
    ∀ target, d.at? own ≠ some (.link target)

theorem Linkless.unlinked (linkless : d.Linkless []) (dest : String) : d.Unlinked dest :=
  fun own _ target => linkless.at?_ne own target

theorem Hosts.unlinked (hosts : d.Hosts base top) (plain : ['.', '.'] ∉ key.toList.splitOn '/')
    (some : (Route.ofText key.toList).steps ≠ []) : d.Unlinked (destination base key) := by
  have hosts' := hosts.keep (makeAround_grows hosts.formed (destination base key)).steady
  intro own lies
  apply hosts.linkless.of_suffix
  rcases lies with object | part
  · exact hosts'.lies_within plain some object
  · rw [← destination_partial] at part
    exact hosts'.lies_within (dots_not_mem_partial plain) (steps_partial key) part

end Disk

namespace Directory

open Disk

variable {σ : Type} {keys : KeyStore σ} {w e : World σ} {base hash key : String} {job : Transform}

theorem exists_of_transform (formed : w.disk.Formed) (asked : job.move = false)
    (ended : (transform base job).run keys w = (e, .ok hash))
    (unlinked : w.disk.Unlinked (destination base (ObjectKey.ofDigest job.dir hash job.suffix))) :
    e.disk.exists? (destination base (ObjectKey.ofDigest job.dir hash job.suffix)) = true := by
  cases read : w.disk.read job.source with
  | error cause =>
    simp only [transform, Program.run, read] at ended
    cases ended
  | ok content =>
    obtain rfl := Store.hash_of_transform (.directory base) read ended
    simp only [transform, Program.run, read] at ended
    generalize Packed.ofContent content = object at unlinked ended ⊢
    generalize destination base (ObjectKey.ofDigest job.dir object.hash job.suffix) = dest
      at unlinked ended ⊢
    have grows := makeAround_grows formed dest
    rw [run_withParent] at ended
    unfold Unlinked at unlinked
    generalize w.disk.makeAround dest = made at grows unlinked ended
    obtain ⟨d, reply⟩ := made
    cases reply with
    | error cause => cases ended
    | ok =>
      obtain ⟨d₁, d₂, written, renamed, finished⟩ := placing_ok ended
      rw [asked] at finished
      cases finished
      apply exists_of_rename (grows.steady.formed formed) written renamed
      intro own lies target link
      exact unlinked own lies target ((grows.steady.links own target).mp link)

theorem isDigest_of_transform (ended : (transform base job).run keys w = (e, .ok hash)) :
    ObjectKey.IsDigest hash := by
  cases read : w.disk.read job.source with
  | error cause =>
    simp only [transform, Program.run, read] at ended
    cases ended
  | ok content =>
    rw [Store.hash_of_transform (.directory base) read ended]
    exact ObjectKey.isDigest_hex _

end Directory

namespace Presence

open Directory

/-- The check and the pushes into a base agree on where things are. -/
structure Agrees (base : String) : Prop where
  looks : ∀ (d : Disk) path, inDirectory base d path = true ↔
    Fits base path ∧ d.exists? (destination base path) = true
  transferred : ∀ {σ : Type} (keys : KeyStore σ) (w e : World σ) (job : Transfer) (hash : String),
    w.disk.Formed → job.move = false → (transfer base job).run keys w = (e, .ok hash) →
    Fits base job.remote → inDirectory base e.disk job.remote = true
  transformed : ∀ {σ : Type} (keys : KeyStore σ) (w e : World σ) (job : Transform)
    (hash key : String), w.disk.Formed → job.move = false →
    (transform base job).run keys w = (e, .ok hash) →
    ObjectKey.ofDigest? job.dir hash job.suffix = some key →
    w.disk.Unlinked (destination base key) → Fits base key → inDirectory base e.disk key = true
  /-- No link is in the way if the disk has none, or the base has none and the key stays in it. -/
  unlinked : ∀ (d : Disk) (job : Transform) (hash : String), ObjectKey.IsDigest hash →
    (d.Linkless [] ∨ ∃ top, d.Hosts base top ∧ (Job.transform job).Descends) →
    d.Unlinked (destination base (ObjectKey.ofDigest job.dir hash job.suffix))

theorem agrees {base : String} (described : base ≠ "") : Agrees base where
  looks := inDirectory_iff described
  transferred := by
    intro σ keys w e job hash formed asked ended fits
    have there := exists_of_transfer formed asked ended
    exact (inDirectory_iff described _ _).mpr ⟨fits, there⟩
  transformed := by
    intro σ keys w e job hash key formed asked ended named unlinked fits
    rw [(isDigest_of_transform ended).ofDigest?_eq] at named
    obtain rfl := Option.some.inj named
    have there := exists_of_transform formed asked ended unlinked
    exact (inDirectory_iff described _ _).mpr ⟨fits, there⟩
  unlinked := by
    intro d job hash digest store
    rcases store with linkless | ⟨top, hosts, descends⟩
    · exact linkless.unlinked _
    · exact hosts.unlinked (digest.dots_not_mem_ofDigest descends.1 descends.2)
        (digest.steps_ofDigest job.dir job.suffix)

/-- The text of a definition that stores into a directory is also that of a check, which finds what
was stored there under a path that is not too long to be looked up. -/
theorem looks_where_stored {processors capacity : Nat} {text : String} {definition : Definition}
    (read : Definition.read processors text capacity = .ok definition)
    (driver : definition.driver = .directory) (described : definition.description ≠ "") :
    Presence.read text = .ok (.directory definition.description) ∧
      Store.ofDefinition definition = .directory definition.description ∧
      Agrees definition.description := by
  refine ⟨read_of_definition read driver described, ?_, agrees described⟩
  simp only [Store.ofDefinition, driver]

theorem fits_of_single {base path : String} (first : ∀ c ∈ base.toList, c.utf8Size = 1)
    (second : ∀ c ∈ path.toList, c.utf8Size = 1) :
    Fits base path ↔ base.toList.length + path.toList.length + 1 < Route.maxPath := by
  have single : ∀ c ∈ base.toList ++ '/' :: path.toList, c.utf8Size = 1 := by
    intro c member
    rcases List.mem_append.mp member with front | behind
    · exact first c front
    · rcases List.mem_cons.mp behind with rfl | later
      · rfl
      · exact second c later
  rw [Fits, beneath, Text.utf8ByteSize_ofList single, List.length_append, List.length_cons]
  rfl

theorem spelled_base : Definition.Spelled "local:base,o,i" .directory "base" "o" "i" :=
  .mk .directory ⟨rfl, by decide, by decide, by decide⟩

theorem single_base : ∀ c ∈ "base".toList, c.utf8Size = 1 := by simp [Char.utf8Size]

theorem fits_object {hash : String} (digest : ObjectKey.IsDigest hash) :
    Fits "base" (ObjectKey.ofDigest "" hash ".obj") := by
  have key : (ObjectKey.ofDigest "" hash ".obj").toList =
      hash.toList.take 2 ++ '/' :: hash.toList.drop 2 ++ ".obj".toList := String.toList_ofList
  have single : ∀ c ∈ (ObjectKey.ofDigest "" hash ".obj").toList, c.utf8Size = 1 := by
    intro c member
    rw [key, List.append_assoc, List.mem_append, List.cons_append, List.mem_cons,
      List.mem_append] at member
    rcases member with first | rfl | rest | suffix
    · exact digest.utf8Size_eq_one (List.mem_of_mem_take first)
    · rfl
    · exact digest.utf8Size_eq_one (List.mem_of_mem_drop rest)
    · have plain : ∀ c ∈ ".obj".toList, c.utf8Size = 1 := by simp [Char.utf8Size]
      exact plain c suffix
  rw [fits_of_single single_base single, key]
  simp only [List.length_append, List.length_cons, List.length_take, List.length_drop,
    digest.length]
  decide

theorem looks_where_stored_twin : ∃ definition e,
    Definition.read 4 "local:base,o,i" 1 = .ok definition ∧
      Presence.read "local:base,o,i" = .ok (.directory "base") ∧
      (transform "base" (flat "a" ".obj")).run (Memory.keyStore fun _ => none) ⟨twins, []⟩ =
        (e, .ok twinHash) ∧
      inDirectory "base" e.disk (ObjectKey.ofDigest "" twinHash ".obj") = true := by
  obtain ⟨definition, read, driver, description, -⟩ := spelled_base.read_eq 4 Nat.one_pos
  obtain ⟨check, -, agrees⟩ := looks_where_stored read driver (by rw [description]; decide)
  rw [description] at check agrees
  have results := results_twins (Memory.keyStore fun _ => none) [] ".obj" ".bin" (by decide)
    (by decide)
  obtain ⟨e, run⟩ := Store.run_of_transforms results
  have digest : ObjectKey.IsDigest twinHash := ObjectKey.isDigest_hex _
  refine ⟨definition, e, read, check, run, ?_⟩
  apply agrees.transformed _ _ e (flat "a" ".obj") twinHash _ formed_twins rfl run
    (digest.ofDigest?_eq "" ".obj")
  · exact agrees.unlinked twins (flat "a" ".obj") twinHash digest (.inl (linkless_twins []))
  · exact fits_object digest

def overlong : String := String.ofList (List.replicate 4096 '/' ++ ['a'])

theorem toList_overlong : overlong.toList = List.replicate 4096 '/' ++ ['a'] :=
  String.toList_ofList

theorem destination_overlong : destination "base" overlong = "base/a" := by
  have dropped : ∀ n, Text.dropSlashes (List.replicate n '/' ++ ['a']) = ['a'] := by
    intro n
    induction n with
    | zero => rfl
    | succ n ih => rw [List.replicate_succ, List.cons_append]; exact ih
  rw [destination, toList_overlong, dropped]
  rfl

/-- The file is where the path leads, and yet it is not found. -/
theorem overlong_unseen : ∃ definition,
    Definition.read 4 "local:base,o,i" 1 = .ok definition ∧ definition.driver = .directory ∧
      definition.description = "base" ∧ stored.exists? (destination "base" overlong) = true ∧
      inDirectory "base" stored overlong = false := by
  obtain ⟨definition, read, driver, description, -⟩ := spelled_base.read_eq 4 Nat.one_pos
  refine ⟨definition, read, driver, description, ?_, ?_⟩
  · rw [destination_overlong]
    rfl
  · apply Bool.eq_false_iff.mpr
    intro found
    have single : ∀ c ∈ overlong.toList, c.utf8Size = 1 := by
      intro c member
      rw [toList_overlong, List.mem_append, List.mem_replicate, List.mem_singleton] at member
      rcases member with ⟨-, rfl⟩ | rfl <;> rfl
    have fits := ((inDirectory_iff (by decide) _ _).mp found).1
    rw [fits_of_single single_base single, toList_overlong, List.length_append,
      List.length_replicate] at fits
    exact absurd fits (by decide)

end Presence

end Spool
