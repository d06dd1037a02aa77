import Spool.Proofs.Push.Destination
import Spool.Proofs.Push.Parcels

/-!
Keys of ordinary names. In a directory such a key leads down from the base through directories of
these names, and its partial object lies beside it.
-/

namespace Spool.Key

open Directory Route

def names (key : String) : List String :=
  (key.toList.splitOn '/').map String.ofList

/-- A name that a directory can have an entry of. -/
def IsOrdinary (n : String) : Prop := n ≠ "" ∧ n ≠ "." ∧ n ≠ ".."

/-- The key begins at the base and leads down only. -/
def Ordinary (key : String) : Prop := ∀ n ∈ names key, IsOrdinary n

structure Passable (base key : String) : Prop where
  path : (Route.read (partialName (destination base key))).isOk = true
  short : Disk.Short (names (partialName key))

instance (key : String) : Decidable (Ordinary key) :=
  inferInstanceAs (Decidable (∀ n ∈ names key, _ ∧ _))

variable {base key other : String} {outer : List String} {n : String}

theorem names_inj (same : names key = names other) : key = other := by
  have pieces : key.toList.splitOn '/' = other.toList.splitOn '/' :=
    (List.map_inj_right fun _ _ eq => String.ofList_injective eq).mp same
  have text := congrArg (['/'].intercalate ·) pieces
  simp only [List.intercalate_splitOn] at text
  exact String.toList_injective text

theorem names_split (key : String) : ∃ outer n, names key = outer ++ [n] := by
  have some : names key ≠ [] := by simp [names, List.splitOn_ne_nil]
  obtain ⟨outer, n, split⟩ := (List.eq_nil_or_concat (names key)).resolve_left some
  exact ⟨outer, n, by rw [split, List.concat_eq_append]⟩

theorem stepOf_ordinary {piece : List Char} (ordinary : IsOrdinary (String.ofList piece)) :
    stepOf piece = some (.name (String.ofList piece)) := by
  obtain ⟨some, one, two⟩ := ordinary
  have first : piece ≠ [] := by rintro rfl; exact some rfl
  have second : piece ≠ ['.'] := by rintro rfl; exact one rfl
  have third : piece ≠ ['.', '.'] := by rintro rfl; exact two rfl
  simp only [stepOf, first, second, third, if_false]

theorem names_partial (split : names key = outer ++ [n]) :
    names (partialName key) = outer ++ [partialName n] := by
  obtain ⟨front, piece, pieces, longer⟩ :=
    splitOn_append_last key.toList (by decide : '/' ∉ ".partial".toList)
  rw [names, pieces, List.map_append] at split
  obtain ⟨rfl, last⟩ := List.append_inj' split rfl
  cases last
  rw [names, partialName, String.toList_append, longer]
  simp [partialName, String.ofList_append]

namespace Ordinary

variable (ordinary : Ordinary key)
include ordinary

theorem steps : (ofText key.toList).steps = (names key).map Step.name := by
  have all : ∀ piece ∈ key.toList.splitOn '/', IsOrdinary (String.ofList piece) := fun piece member =>
    ordinary _ (List.mem_map_of_mem member)
  unfold ofText names
  dsimp only
  generalize key.toList.splitOn '/' = pieces at all
  induction pieces with
  | nil => rfl
  | cons piece pieces ih =>
    rw [List.filterMap_cons, stepOf_ordinary (all piece List.mem_cons_self),
      ih fun p member => all p (List.mem_cons_of_mem piece member)]
    rfl

theorem no_empty : [] ∉ key.toList.splitOn '/' := by
  intro member
  exact (ordinary _ (List.mem_map_of_mem member)).1 rfl

theorem head : key.toList.head? ≠ some '/' := by
  intro first
  obtain ⟨rest, text⟩ := List.head?_eq_some_iff.mp first
  have split : ('/' :: rest).splitOn '/' = [] :: rest.splitOn '/' :=
    List.splitOn_append_cons_self [] rest
  exact ordinary.no_empty (by rw [text, split]; exact List.mem_cons_self)

theorem last : key.toList.getLast? ≠ some '/' := by
  intro slash
  obtain ⟨front, text⟩ := List.getLast?_eq_some_iff.mp slash
  refine ordinary.no_empty ?_
  rw [text, List.splitOn_append_cons_self]
  simp

theorem text : key.toList ≠ [] := by
  intro none
  refine ordinary.no_empty ?_
  rw [none]
  simp

theorem destination_eq : (destination base key).toList = Path.join base.toList key.toList := by
  have kept : Text.dropSlashes key.toList = key.toList := by
    obtain ⟨c, rest, text⟩ := List.exists_cons_of_ne_nil ordinary.text
    have other : c ≠ '/' := by
      rintro rfl
      exact ordinary.head (by rw [text]; rfl)
    rw [text, Text.dropSlashes, List.dropWhile_cons_of_neg (by simpa using other)]
  rw [destination, String.toList_ofList, kept]

theorem leads (base : String) (split : names key = outer ++ [n]) :
    Leads (ofText base.toList) (destination base key).toList outer n := by
  refine ⟨absolute_destination base key, outer.map Step.name, ?_, ?_⟩
  · rw [steps_destination, ordinary.steps, split, List.map_append, List.append_assoc]
    rfl
  · clear split
    induction outer with
    | nil => exact .nil
    | cons m outer ih => exact .name ih

theorem bare (base : String) : (ofText (destination base key).toList).slash = false := by
  have back : ∀ more : List Char, (more ++ key.toList).getLast? ≠ some '/' := by
    intro more
    have last := ordinary.last
    rw [List.getLast?_eq_some_getLast ordinary.text] at last
    rw [List.getLast?_append, List.getLast?_eq_some_getLast ordinary.text, Option.some_or]
    exact last
  rw [ordinary.destination_eq, join_plain ordinary.head]
  simp only [ofText, beq_eq_false_iff_ne]
  split
  · exact back _
  · rw [← List.singleton_append, ← List.append_assoc]
    exact back _

end Ordinary

theorem ordinary_partial (ordinary : Ordinary key) : Ordinary (partialName key) := by
  obtain ⟨outer, n, split⟩ := names_split key
  intro m member
  rw [names_partial split] at member
  rcases List.mem_append.mp member with before | here
  · exact ordinary m (split ▸ List.mem_append_left _ before)
  · rw [List.mem_singleton.mp here]
    have long : 8 ≤ (partialName n).toList.length := by
      rw [partialName, String.toList_append, List.length_append]
      exact Nat.le_add_left ..
    refine ⟨?_, ?_, ?_⟩ <;>
    · intro same
      rw [same] at long
      exact absurd long (by decide)

theorem Passable.names (passable : Passable base key) (ordinary : Ordinary key)
    (split : names key = outer ++ [n]) :
    Disk.Names (ofText base.toList) (destination base key) outer n ∧
      Disk.Names (ofText base.toList) (partialName (destination base key)) outer (partialName n) := by
  have read := Parcel.read_of_isOk passable.path
  have beside := ordinary_partial ordinary
  have same := destination_partial base key
  refine ⟨⟨ordinary.leads base split, ?_⟩, ?_, read⟩
  · have isFront : (destination base key).toList <+: (partialName (destination base key)).toList := by
      rw [partialName, String.toList_append]
      exact List.prefix_append _ _
    have some : (destination base key).toList ≠ [] := by
      rw [ordinary.destination_eq, join_plain ordinary.head]
      have text := ordinary.text
      split <;> simp [text]
    have passed := read_of_prefix some isFront read
    rwa [String.ofList_toList] at passed
  · rw [← same]
    exact beside.leads base (names_partial split)

theorem Passable.short_names (passable : Passable base key) (split : Key.names key = outer ++ [n]) :
    Disk.Short (outer ++ [n]) ∧ Disk.Short (outer ++ [partialName n]) := by
  have short := passable.short
  rw [names_partial split] at short
  refine ⟨fun m member => ?_, short⟩
  rcases List.mem_append.mp member with before | here
  · exact short m (List.mem_append_left _ before)
  · have longer := short (partialName n) (by simp)
    rw [partialName, String.utf8ByteSize_append] at longer
    rw [List.mem_singleton.mp here]
    exact Nat.le_trans (Nat.le_add_right _ _) longer

end Spool.Key
