import Spool.Proofs.Disk.Sources
import Spool.Proofs.ObjectKey
import Spool.Proofs.Push.Crews

/-!
Transforms with the content they find. What is stored, under which names below the base, and whether
it can be stored at all, are then known before anything is done.
-/

namespace Spool

/-- A transform and the content of its source. -/
structure Parcel where
  job : Transform
  content : ByteArray

namespace Parcel

open Directory Route

def ofJob (d : Disk) (job : Transform) : Parcel where
  job
  content :=
    match d.read job.source with
    | .ok bytes => bytes
    | .error _ => .empty

def object (p : Parcel) : Packed := Packed.ofContent p.content

def dest (base : String) (p : Parcel) : String :=
  destination base (ObjectKey.ofDigest p.job.dir p.object.hash p.job.suffix)

def beside (base : String) (p : Parcel) : String := partialName (p.dest base)

def parent (base : String) (p : Parcel) : String := (Path.parent? (p.dest base)).getD ""

def outer (p : Parcel) : List String :=
  names (ofText p.job.dir.toList).steps ++ [String.ofList (p.object.hash.toList.take 2)]

def name (p : Parcel) : String :=
  String.ofList (p.object.hash.toList.drop 2 ++ p.job.suffix.toList)

def trail (p : Parcel) : List String := p.outer ++ [p.name]

/-- The names that lead from the base to where the object is written first. -/
def sideTrail (p : Parcel) : List String := p.outer ++ [partialName p.name]

def Reached (base : String) (p : Parcel) : Prop := (Route.read (p.parent base)).isOk = true

/-- Neither the paths nor the names on the way are too long, or hold what the system refuses. -/
def Storable (base : String) (p : Parcel) : Prop :=
  (Route.read (p.beside base)).isOk = true ∧ Disk.Short p.sideTrail

/-- The directory steps down only, and the suffix is part of a name. -/
structure Plain (job : Transform) : Prop where
  dir : ['.', '.'] ∉ job.dir.toList.splitOn '/'
  suffix : '/' ∉ job.suffix.toList

instance (base : String) (p : Parcel) : Decidable (p.Reached base) :=
  inferInstanceAs (Decidable (_ = true))

instance (base : String) (p : Parcel) : Decidable (p.Storable base) :=
  inferInstanceAs (Decidable (_ ∧ _))

variable {base : String} {p q : Parcel}

theorem mem_hash {c : Char} (member : c ∈ p.object.hash.toList) :
    c ∈ "0123456789abcdef".toList := by
  simp only [object, Packed.ofContent] at member
  exact Sha256.mem_hex member

theorem length_hash (p : Parcel) : p.object.hash.toList.length = 64 := Sha256.length_hex _

theorem slash_not_mem_hash : '/' ∉ p.object.hash.toList := fun member =>
  absurd (mem_hash member) (by decide)

def front (p : Parcel) : List Char :=
  match Text.dropEndSlashes p.job.dir.toList with
  | [] => p.object.hash.toList.take 2
  | dir => dir ++ '/' :: p.object.hash.toList.take 2

def pathOf (base : String) (p : Parcel) (n : String) : String :=
  String.ofList (Path.join base.toList (Text.dropSlashes p.front ++ '/' :: n.toList))

theorem steps_hash {piece : List Char} (some : 2 ≤ piece.length) (free : '/' ∉ piece)
    (other : piece ≠ ['.', '.']) : (ofText piece).steps = [.name (String.ofList piece)] := by
  have single : piece ≠ [] ∧ piece ≠ ['.'] := by
    constructor <;> rintro rfl <;> simp at some
  rw [steps_piece free]
  simp only [stepOf, single, other, if_false, Option.toList_some]

theorem fan_text (p : Parcel) : 2 ≤ (p.object.hash.toList.take 2).length ∧
    '/' ∉ p.object.hash.toList.take 2 ∧ p.object.hash.toList.take 2 ≠ ['.', '.'] := by
  refine ⟨by simp [p.length_hash], fun member => slash_not_mem_hash (List.mem_of_mem_take member),
    fun dots => ?_⟩
  have member : '.' ∈ p.object.hash.toList.take 2 := by simp [dots]
  exact absurd (mem_hash (List.mem_of_mem_take member)) (by decide)

theorem steps_front (p : Parcel) : (ofText p.front).steps =
    (ofText p.job.dir.toList).steps ++ [.name (String.ofList (p.object.hash.toList.take 2))] := by
  obtain ⟨long, free, other⟩ := p.fan_text
  rw [← steps_dropEndSlashes p.job.dir.toList]
  unfold front
  split
  · next none =>
    rw [none, steps_hash long free other]
    rfl
  · rw [steps_append, steps_hash long free other]

theorem front_text (p : Parcel) : Text.dropSlashes p.front ≠ [] := by
  intro none
  have steps := p.steps_front
  rw [← steps_dropSlashes, none] at steps
  exact absurd (congrArg List.length steps) (by simp [ofText, stepOf])

theorem head_front (p : Parcel) (more : List Char) :
    (Text.dropSlashes p.front ++ more).head? ≠ some '/' := by
  have kept := p.front_text
  unfold Text.dropSlashes at kept ⊢
  have first := List.head_dropWhile_not (· == '/') kept
  rw [List.head?_append, List.head?_eq_some_head kept, Option.some_or]
  intro slash
  simp [Option.some.inj slash] at first

theorem dest_eq (p : Parcel) : p.dest base = p.pathOf base p.name := by
  have key : ObjectKey.render p.job.dir.toList (p.object.hash.toList.take 2)
      (p.object.hash.toList.drop 2) p.job.suffix.toList = p.front ++ '/' :: p.name.toList := by
    unfold ObjectKey.render front name
    rw [String.toList_ofList]
    cases Text.dropEndSlashes p.job.dir.toList with
    | nil => simp only [List.append_assoc, List.cons_append]
    | cons c dir => simp only [List.append_assoc, List.cons_append]
  have dropped : Text.dropSlashes (p.front ++ '/' :: p.name.toList) =
      Text.dropSlashes p.front ++ '/' :: p.name.toList := by
    have some := p.front_text
    unfold Text.dropSlashes at some ⊢
    rw [List.dropWhile_append, if_neg (by simpa using some)]
  simp only [dest, destination, ObjectKey.ofDigest, String.toList_ofList, pathOf, key, dropped]

theorem beside_eq (p : Parcel) : p.beside base = p.pathOf base (partialName p.name) := by
  have longer : ∀ more : List Char,
      Path.join base.toList (Text.dropSlashes p.front ++ more ++ ".partial".toList) =
        Path.join base.toList (Text.dropSlashes p.front ++ more) ++ ".partial".toList := by
    intro more
    rw [join_plain (p.head_front more), List.append_assoc, join_plain (p.head_front _)]
    split <;> simp
  rw [beside, dest_eq, partialName, pathOf, pathOf, partialName, String.toList_append,
    ← List.cons_append, ← List.append_assoc, longer, String.ofList_append, String.ofList_toList]

structure Named (n : String) : Prop where
  long : 3 ≤ n.toList.length
  free : '/' ∉ n.toList

theorem named_name (plain : Plain p.job) : Named p.name := by
  constructor
  · simp only [name, String.toList_ofList, List.length_append, List.length_drop, p.length_hash]
    omega
  · intro member
    rw [name, String.toList_ofList, List.mem_append] at member
    rcases member with hash | suffix
    · exact slash_not_mem_hash (List.mem_of_mem_drop hash)
    · exact plain.suffix suffix

theorem named_partial {n : String} (named : Named n) : Named (partialName n) := by
  constructor
  · rw [partialName, String.toList_append, List.length_append]
    exact Nat.le_add_right_of_le named.long
  · intro member
    rw [partialName, String.toList_append, List.mem_append] at member
    exact member.elim named.free (by decide)

theorem leads (base : String) {n : String} (plain : Plain p.job) (named : Named n) :
    Leads (ofText base.toList) (p.pathOf base n).toList p.outer n := by
  have below := p.head_front ('/' :: n.toList)
  have dirs := up_not_mem_steps plain.dir
  rw [pathOf, String.toList_ofList]
  refine ⟨absolute_join below,
    (ofText p.job.dir.toList).steps ++ [.name (String.ofList (p.object.hash.toList.take 2))], ?_,
    (spells_names dirs).append (.single _)⟩
  have last := steps_hash (Nat.le_of_succ_le named.long) named.free
    (by intro dots; simpa [dots] using named.long)
  rw [String.ofList_toList] at last
  rw [steps_join below, steps_append, steps_dropSlashes, steps_front, last]
  simp only [List.append_assoc]

theorem slash_pathOf {n : String} (named : Named n) :
    (ofText (p.pathOf base n).toList).slash = false := by
  have last : n.toList.getLast? ≠ some '/' := fun slash =>
    named.free (List.mem_of_getLast? slash)
  have some : n.toList ≠ [] := by
    intro none
    simpa [none] using named.long
  rw [pathOf, String.toList_ofList, join_plain (p.head_front _)]
  simp only [ofText, beq_eq_false_iff_ne]
  have back : ∀ more : List Char, (more ++ '/' :: n.toList).getLast? ≠ .some '/' := by
    intro more
    rw [List.getLast?_append, List.getLast?_cons_of_ne_nil some,
      List.getLast?_eq_some_getLast some, Option.some_or]
    rwa [List.getLast?_eq_some_getLast some] at last
  split
  · rw [← List.append_assoc]
    exact back _
  · rw [← List.cons_append, ← List.append_assoc]
    exact back _

theorem read_of_isOk {path : String} (passed : (Route.read path).isOk = true) :
    Route.read path = .ok (ofText path.toList) := by
  unfold Route.read at passed ⊢
  split
  · next bad => rw [if_pos bad] at passed; cases passed
  · next clean =>
    rw [if_neg clean] at passed
    split
    · next empty => rw [if_pos empty] at passed; cases passed
    · next some =>
      rw [if_neg some] at passed
      split
      · next long => rw [if_pos long] at passed; cases passed
      · rfl

theorem parent_leads (base : String) (plain : Plain p.job) :
    Path.parent? (p.dest base) = some (p.parent base) ∧
      (p.parent base).toList <+: (p.dest base).toList ∧
        ∃ up n, p.outer = up ++ [n] ∧ Leads (ofText base.toList) (p.parent base).toList up n := by
  have leads := leads base plain (named_name plain)
  rw [← dest_eq] at leads
  obtain ⟨front, known, isFront, inner⟩ := leads.parent
  rw [String.ofList_toList] at known
  have same : p.parent base = String.ofList front := by rw [parent, known, Option.getD_some]
  rw [same, String.toList_ofList]
  exact ⟨known, isFront, _, _, rfl, inner _ _ rfl⟩

theorem names_beside (plain : Plain p.job)
    (passed : (Route.read (p.beside base)).isOk = true) :
    Disk.Names (ofText base.toList) (p.beside base) p.outer (partialName p.name) := by
  refine ⟨?_, read_of_isOk passed⟩
  rw [beside_eq]
  exact leads base plain (named_partial (named_name plain))

theorem names_dest (plain : Plain p.job) (storable : p.Storable base) :
    Disk.Names (ofText base.toList) (p.dest base) p.outer p.name := by
  have leads := leads base plain (named_name plain)
  rw [← dest_eq] at leads
  refine ⟨leads, ?_⟩
  have isFront : (p.dest base).toList <+: (p.beside base).toList := by
    rw [beside, partialName, String.toList_append]
    exact List.prefix_append _ _
  have named : (p.dest base).toList ≠ [] := by
    intro none
    obtain ⟨mid, steps, _⟩ := leads.steps
    simp [none, ofText, stepOf] at steps
  have passed := read_of_prefix named isFront (read_of_isOk storable.1)
  rwa [String.ofList_toList] at passed

theorem Storable.reached (storable : p.Storable base) (plain : Plain p.job) :
    p.Reached base := by
  obtain ⟨_, isFront, up, n, _, leads⟩ := parent_leads base plain
  have named : (p.parent base).toList ≠ [] := by
    intro none
    obtain ⟨mid, steps, _⟩ := leads.steps
    simp [none, ofText, stepOf] at steps
  have passed := read_of_prefix named isFront (names_dest plain storable).read
  rw [String.ofList_toList] at passed
  rw [Reached, passed]
  rfl

theorem Storable.short (storable : p.Storable base) : Disk.Short p.trail := by
  intro n member
  rcases List.mem_append.mp member with before | last
  · exact storable.2 n (List.mem_append_left _ before)
  · rw [List.mem_singleton.mp last]
    have longer := storable.2 (partialName p.name) (List.mem_append_right _ (by simp))
    rw [partialName, String.utf8ByteSize_append] at longer
    exact Nat.le_trans (Nat.le_add_right _ _) longer

theorem Storable.shortOuter (storable : p.Storable base) : Disk.Short p.outer := fun n member =>
  storable.2 n (List.mem_append_left _ member)

theorem name_ne_partial (n : String) : partialName n ≠ n := by
  intro same
  have length := congrArg String.utf8ByteSize same
  rw [partialName, String.utf8ByteSize_append] at length
  have some : 0 < ".partial".utf8ByteSize := by decide
  omega

theorem eq_of_concat {more more' : List Char}
    (same : p.outer ++ [String.ofList (p.object.hash.toList.drop 2 ++ more)] =
      q.outer ++ [String.ofList (q.object.hash.toList.drop 2 ++ more')]) :
    names (ofText p.job.dir.toList).steps = names (ofText q.job.dir.toList).steps ∧
      p.object.hash = q.object.hash ∧ more = more' := by
  obtain ⟨outer, last⟩ := List.append_inj' same (by simp only [List.length_singleton])
  obtain ⟨dirs, fan⟩ := List.append_inj' outer (by simp only [List.length_singleton])
  have front := String.ofList_injective (List.singleton_inj.mp fan)
  have rest := String.ofList_injective (List.singleton_inj.mp last)
  obtain ⟨back, more⟩ := List.append_inj rest (by simp only [List.length_drop, length_hash])
  refine ⟨dirs, ?_, more⟩
  rw [← String.toList_inj, ← List.take_append_drop 2 p.object.hash.toList, front, back,
    List.take_append_drop]

theorem partialName_eq (p : Parcel) : partialName p.name =
    String.ofList (p.object.hash.toList.drop 2 ++ (p.job.suffix ++ ".partial").toList) := by
  rw [← String.toList_inj]
  simp only [partialName, name, String.toList_append, String.toList_ofList, List.append_assoc]

theorem eq_of_trail (same : p.trail = q.trail) :
    names (ofText p.job.dir.toList).steps = names (ofText q.job.dir.toList).steps ∧
      p.object.hash = q.object.hash ∧ p.job.suffix = q.job.suffix := by
  obtain ⟨dirs, hash, suffix⟩ := eq_of_concat same
  exact ⟨dirs, hash, String.toList_inj.mp suffix⟩

theorem eq_of_sideTrail (same : p.sideTrail = q.sideTrail) :
    names (ofText p.job.dir.toList).steps = names (ofText q.job.dir.toList).steps ∧
      p.object.hash = q.object.hash ∧ p.job.suffix = q.job.suffix := by
  rw [sideTrail, sideTrail, partialName_eq, partialName_eq] at same
  obtain ⟨dirs, hash, suffix⟩ := eq_of_concat same
  rw [String.toList_append, String.toList_append] at suffix
  exact ⟨dirs, hash, String.toList_inj.mp (List.append_cancel_right suffix)⟩

/-- An object goes where another one is written first only if its suffix says so. -/
theorem eq_of_trail_sideTrail (same : p.trail = q.sideTrail) :
    names (ofText p.job.dir.toList).steps = names (ofText q.job.dir.toList).steps ∧
      p.object.hash = q.object.hash ∧ p.job.suffix = q.job.suffix ++ ".partial" := by
  rw [trail, name, sideTrail, partialName_eq] at same
  obtain ⟨dirs, hash, suffix⟩ := eq_of_concat same
  exact ⟨dirs, hash, String.toList_inj.mp suffix⟩

theorem side_ne_trail (p : Parcel) : p.sideTrail ≠ p.trail := by
  intro same
  simp only [sideTrail, trail, List.append_cancel_left_eq, List.cons.injEq, and_true] at same
  exact name_ne_partial p.name same

theorem trail_ne_nil (p : Parcel) : p.trail ≠ [] := by simp [trail]

theorem sideTrail_ne_nil (p : Parcel) : p.sideTrail ≠ [] := by simp [sideTrail]

theorem sideTrail_of_trail (same : p.trail = q.trail) : p.sideTrail = q.sideTrail := by
  unfold trail at same
  obtain ⟨outer, last⟩ := List.append_inj' same (by simp only [List.length_singleton])
  rw [sideTrail, sideTrail, outer, List.singleton_inj.mp last]

theorem utf8ByteSize_take (p : Parcel) :
    (String.ofList (p.object.hash.toList.take 2)).utf8ByteSize = 2 := by
  rw [Hex.utf8ByteSize_digits fun c member => mem_hash (List.mem_of_mem_take member),
    List.length_take, p.length_hash]
  rfl

theorem utf8ByteSize_name (p : Parcel) : p.name.utf8ByteSize = 62 + p.job.suffix.utf8ByteSize := by
  rw [name, String.ofList_append, String.utf8ByteSize_append, String.ofList_toList,
    Hex.utf8ByteSize_digits fun c member => mem_hash (List.mem_of_mem_drop member),
    List.length_drop, p.length_hash]

theorem utf8ByteSize_front (p : Parcel) :
    (String.ofList p.front).utf8ByteSize ≤ p.job.dir.utf8ByteSize + 3 := by
  obtain ⟨n, split⟩ := dropEndSlashes_append p.job.dir.toList
  have whole := congrArg (fun cs => (String.ofList cs).utf8ByteSize) split
  simp only [String.ofList_toList, String.ofList_append, String.utf8ByteSize_append] at whole
  unfold front
  split
  · rw [p.utf8ByteSize_take]
    omega
  · next dir _ =>
    rw [← List.singleton_append, String.ofList_append, String.ofList_append,
      String.utf8ByteSize_append, String.utf8ByteSize_append, p.utf8ByteSize_take]
    have slash : (String.ofList ['/']).utf8ByteSize = 1 := rfl
    omega

theorem utf8ByteSize_pathOf (base : String) (p : Parcel) (n : String) :
    (p.pathOf base n).utf8ByteSize ≤
      base.utf8ByteSize + p.job.dir.utf8ByteSize + n.utf8ByteSize + 5 := by
  have slash : (String.ofList ['/']).utf8ByteSize = 1 := rfl
  have front : (String.ofList (Text.dropSlashes p.front)).utf8ByteSize ≤
      p.job.dir.utf8ByteSize + 3 := by
    refine Nat.le_trans ?_ p.utf8ByteSize_front
    conv => rhs; rw [← List.takeWhile_append_dropWhile (p := (· == '/')) (l := p.front)]
    rw [String.ofList_append, String.utf8ByteSize_append]
    exact Nat.le_add_left _ _
  rw [pathOf, join_plain (p.head_front _)]
  have back : ∀ more : List Char,
      (String.ofList (more ++ (Text.dropSlashes p.front ++ '/' :: n.toList))).utf8ByteSize ≤
        (String.ofList more).utf8ByteSize + p.job.dir.utf8ByteSize + n.utf8ByteSize + 4 := by
    intro more
    rw [← List.singleton_append (l := n.toList)]
    simp only [String.ofList_append, String.utf8ByteSize_append, String.ofList_toList]
    omega
  split
  · have whole := back base.toList
    rw [String.ofList_toList] at whole
    omega
  · have whole := back (base.toList ++ ['/'])
    simp only [String.ofList_append, String.utf8ByteSize_append, String.ofList_toList,
      List.append_assoc, List.singleton_append] at whole ⊢
    omega

theorem mem_front {c : Char} (member : c ∈ p.front) :
    c ∈ p.job.dir.toList ∨ c = '/' ∨ c ∈ p.object.hash.toList := by
  obtain ⟨n, split⟩ := dropEndSlashes_append p.job.dir.toList
  unfold front at member
  split at member
  · exact .inr (.inr (List.mem_of_mem_take member))
  · next dir _ =>
    rcases List.mem_append.mp member with own | last
    · rw [split]
      exact .inl (List.mem_append_left _ own)
    · exact .inr ((List.mem_cons.mp last).imp_right List.mem_of_mem_take)

theorem mem_pathOf {n : String} {c : Char} (member : c ∈ (p.pathOf base n).toList) :
    c ∈ base.toList ∨ c ∈ p.job.dir.toList ∨ c = '/' ∨ c ∈ p.object.hash.toList ∨ c ∈ n.toList := by
  have back : c ∈ Text.dropSlashes p.front ++ '/' :: n.toList →
      c ∈ p.job.dir.toList ∨ c = '/' ∨ c ∈ p.object.hash.toList ∨ c ∈ n.toList := by
    intro member
    rcases List.mem_append.mp member with front | last
    · rcases mem_front ((List.dropWhile_sublist _).subset front) with dir | slash | hash
      · exact .inl dir
      · exact .inr (.inl slash)
      · exact .inr (.inr (.inl hash))
    · rcases List.mem_cons.mp last with slash | name
      · exact .inr (.inl slash)
      · exact .inr (.inr (.inr name))
  rw [pathOf, String.toList_ofList, join_plain (p.head_front _)] at member
  split at member
  · exact (List.mem_append.mp member).imp_right back
  · rcases List.mem_append.mp member with own | rest
    · exact .inl own
    · rcases List.mem_cons.mp rest with slash | rest
      · exact .inr (.inr (.inl slash))
      · exact .inr (back rest)

/-- Short texts give an object that can be stored, whatever its digest. -/
theorem storable_of_short (plain : Plain p.job)
    (passable : '\x00' ∉ base.toList ++ p.job.dir.toList ++ p.job.suffix.toList)
    (fits : base.utf8ByteSize + p.job.dir.utf8ByteSize + p.job.suffix.utf8ByteSize ≤ 4000)
    (short : Disk.Short (names (ofText p.job.dir.toList).steps))
    (brief : p.job.suffix.utf8ByteSize ≤ 185) : p.Storable base := by
  have sidePart : (partialName p.name).utf8ByteSize = 70 + p.job.suffix.utf8ByteSize := by
    rw [partialName, String.utf8ByteSize_append, p.utf8ByteSize_name]
    have part : ".partial".utf8ByteSize = 8 := rfl
    omega
  constructor
  · rw [beside_eq]
    have small := p.utf8ByteSize_pathOf base (partialName p.name)
    have long : ¬ maxPath ≤ (p.pathOf base (partialName p.name)).utf8ByteSize := by
      unfold maxPath
      omega
    have clean : isUnpassable (p.pathOf base (partialName p.name)) = false := by
      refine Bool.eq_false_iff.mpr fun bad => passable ?_
      simp only [isUnpassable, List.contains_iff_mem] at bad
      rcases mem_pathOf bad with own | dir | slash | hash | name
      · exact List.mem_append_left _ (List.mem_append_left _ own)
      · exact List.mem_append_left _ (List.mem_append_right _ dir)
      · exact absurd slash (by decide)
      · exact absurd (mem_hash hash) (by decide)
      · rw [partialName, Parcel.name, String.toList_append,
          String.toList_ofList, List.append_assoc] at name
        rcases List.mem_append.mp name with hash | rest
        · exact absurd (mem_hash (List.mem_of_mem_drop hash)) (by decide)
        · rcases List.mem_append.mp rest with suffix | last
          · exact List.mem_append_right _ suffix
          · exact absurd last (by decide)
    have some : (p.pathOf base (partialName p.name)).toList ≠ [] := by
      intro none
      obtain ⟨mid, steps, _⟩ := (leads base plain (named_partial (named_name plain))).steps
      simp [none, ofText, stepOf] at steps
    rw [Route.read, clean, if_neg Bool.false_ne_true, if_neg some, if_neg long]
    rfl
  · intro n member
    rw [sideTrail, outer, List.append_assoc] at member
    rcases List.mem_append.mp member with dir | last
    · exact short n dir
    · unfold maxName
      simp only [List.singleton_append, List.mem_cons, List.not_mem_nil, or_false] at last
      rcases last with rfl | rfl
      · rw [p.utf8ByteSize_take]
        omega
      · rw [sidePart]
        omega

end Parcel

end Spool
