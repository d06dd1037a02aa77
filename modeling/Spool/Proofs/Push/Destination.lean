import Spool.Proofs.Disk.Route
import Spool.Proofs.ObjectKey
import Spool.Push.Directory

/-!
Texts of keys and of their paths below a base. A path takes the steps of the base and then those of
the key, however many slashes the key begins with; and it never steps up where the key does not.
-/

namespace Spool

namespace Route

variable {cs more : List Char}

theorem splitOn_append_last (cs : List Char) (free : '/' ∉ more) : ∃ front piece,
    cs.splitOn '/' = front ++ [piece] ∧ (cs ++ more).splitOn '/' = front ++ [piece ++ more] := by
  induction cs with
  | nil => exact ⟨[], [], rfl, List.splitOn_eq_singleton free⟩
  | cons c cs ih =>
    obtain ⟨front, piece, split, longer⟩ := ih
    rw [List.cons_append, List.splitOn_cons_eq_if_modifyHead, List.splitOn_cons_eq_if_modifyHead,
      split, longer]
    split
    · exact ⟨[] :: front, piece, rfl, rfl⟩
    · cases front with
      | nil => exact ⟨[], c :: piece, rfl, rfl⟩
      | cons first front => exact ⟨(c :: first) :: front, piece, rfl, rfl⟩

theorem splitOn_append_first (free : '/' ∉ more) (cs : List Char) :
    (more ++ cs).splitOn '/' = (cs.splitOn '/').modifyHead (more ++ ·) := by
  induction more with
  | nil => cases pieces : cs.splitOn '/' <;> simp [pieces]
  | cons c more ih =>
    have other : ¬ (c == '/') = true := by
      intro same
      exact free (by simp [beq_iff_eq.mp same])
    rw [List.cons_append, List.splitOn_cons_eq_if_modifyHead, if_neg other,
      ih fun member => free (List.mem_cons_of_mem c member)]
    cases pieces : cs.splitOn '/' <;> simp

theorem dots_not_mem_behind (free : '/' ∉ more) (long : 3 ≤ more.length)
    (plain : ['.', '.'] ∉ cs.splitOn '/') : ['.', '.'] ∉ (cs ++ more).splitOn '/' := by
  obtain ⟨front, piece, split, longer⟩ := splitOn_append_last cs free
  rw [split] at plain
  rw [longer]
  intro member
  rcases List.mem_append.mp member with before | last
  · exact plain (List.mem_append_left _ before)
  · have length := congrArg List.length (List.mem_singleton.mp last)
    simp only [List.length_append, List.length_cons, List.length_nil] at length
    omega

theorem dots_not_mem_before (free : '/' ∉ more) (long : 3 ≤ more.length)
    (plain : ['.', '.'] ∉ (cs.splitOn '/').tail) : ['.', '.'] ∉ (more ++ cs).splitOn '/' := by
  rw [splitOn_append_first free]
  cases pieces : cs.splitOn '/' with
  | nil => exact List.not_mem_nil
  | cons piece rest =>
    rw [pieces] at plain
    intro member
    rcases List.mem_cons.mp member with first | later
    · have length := congrArg List.length first
      simp only [List.length_append, List.length_cons, List.length_nil] at length
      omega
    · exact plain later

theorem dropSlashes_eq_nil (none : (ofText cs).steps = []) : Text.dropSlashes cs = [] := by
  have first := head_dropSlashes cs
  rw [← steps_dropSlashes] at none
  cases kept : Text.dropSlashes cs with
  | nil => rfl
  | cons c rest =>
    rw [kept] at none first
    have other : ¬ (c == '/') = true := by
      intro same
      exact first (by rw [beq_iff_eq.mp same]; rfl)
    cases pieces : rest.splitOn '/' with
    | nil => exact absurd pieces (List.splitOn_ne_nil _ _)
    | cons piece more =>
      refine absurd none (steps_ne_nil ?_ (List.cons_ne_nil c piece))
      rw [List.splitOn_cons_eq_if_modifyHead, if_neg other, pieces]
      exact List.mem_cons_self

end Route

namespace ObjectKey

open Route

theorem dots_not_mem_dropEndSlashes {cs : List Char} (plain : ['.', '.'] ∉ cs.splitOn '/') :
    ['.', '.'] ∉ (Text.dropEndSlashes cs).splitOn '/' := by
  obtain ⟨n, split⟩ := dropEndSlashes_append cs
  cases n with
  | zero =>
    rw [List.replicate_zero, List.append_nil] at split
    rwa [← split]
  | succ n =>
    rw [split, List.replicate_succ, List.splitOn_append_cons_self] at plain
    exact fun member => plain (List.mem_append_left _ member)

/-- A key steps up only where its directory does, or what follows a slash in its suffix. -/
theorem dots_not_mem_render {dir fan rest suffix : List Char} (apart : '/' ∉ fan)
    (other : fan ≠ ['.', '.']) (free : '/' ∉ rest) (long : 3 ≤ rest.length)
    (outer : ['.', '.'] ∉ dir.splitOn '/') (inner : ['.', '.'] ∉ (suffix.splitOn '/').tail) :
    ['.', '.'] ∉ (render dir fan rest suffix).splitOn '/' := by
  have object : ['.', '.'] ∉ (fan ++ '/' :: rest ++ suffix).splitOn '/' := by
    rw [List.append_assoc, List.cons_append, List.splitOn_append_cons_self,
      List.splitOn_eq_singleton apart]
    intro member
    rcases List.mem_append.mp member with first | later
    · exact other (List.mem_singleton.mp first).symm
    · exact dots_not_mem_before free long inner later
  unfold render
  split
  · exact object
  · have kept := dots_not_mem_dropEndSlashes outer
    simp only [List.append_assoc, List.cons_append] at object ⊢
    rw [List.splitOn_append_cons_self]
    intro member
    rcases List.mem_append.mp member with first | later
    · exact kept first
    · exact object later

namespace IsDigest

variable {dir hash suffix : String} (digest : IsDigest hash)
include digest

theorem dots_not_mem_ofDigest (outer : ['.', '.'] ∉ dir.toList.splitOn '/')
    (inner : ['.', '.'] ∉ (suffix.toList.splitOn '/').tail) :
    ['.', '.'] ∉ (ofDigest dir hash suffix).toList.splitOn '/' := by
  have other : hash.toList.take 2 ≠ ['.', '.'] := by
    intro dots
    have member : '.' ∈ hash.toList.take 2 := by simp [dots]
    exact absurd (digest.digits '.' (List.mem_of_mem_take member)) (by decide)
  have free : '/' ∉ hash.toList.drop 2 := fun member =>
    digest.slash_not_mem (List.mem_of_mem_drop member)
  have long : 3 ≤ (hash.toList.drop 2).length := by
    rw [List.length_drop, digest.length]
    decide
  rw [ofDigest, String.toList_ofList]
  exact dots_not_mem_render digest.slash_not_mem_fan other free long outer inner

theorem steps_ofDigest (dir suffix : String) :
    (ofText (ofDigest dir hash suffix).toList).steps ≠ [] := by
  have some : hash.toList.take 2 ≠ [] := by
    intro none
    have two := congrArg List.length none
    rw [List.length_take, digest.length] at two
    cases two
  obtain ⟨front, pieces, -⟩ :=
    splitOn_render dir.toList digest.slash_not_mem_fan (hash.toList.drop 2) suffix.toList
  rw [ofDigest, String.toList_ofList]
  refine steps_ne_nil ?_ some
  rw [pieces]
  exact List.mem_append_right _ List.mem_cons_self

end IsDigest

end ObjectKey

namespace Directory

open Route

theorem toList_destination (base key : String) :
    (destination base key).toList = Path.join base.toList (Text.dropSlashes key.toList) :=
  String.toList_ofList

theorem steps_destination (base key : String) : (ofText (destination base key).toList).steps =
    (ofText base.toList).steps ++ (ofText key.toList).steps := by
  rw [toList_destination, steps_join (head_dropSlashes _), steps_dropSlashes]

theorem absolute_destination (base key : String) :
    (ofText (destination base key).toList).absolute = (ofText base.toList).absolute := by
  rw [toList_destination, absolute_join (head_dropSlashes _)]

/-- No key takes the place of the base. -/
theorem prefix_destination (base key : String) : base.toList <+: (destination base key).toList := by
  rw [toList_destination, join_plain (head_dropSlashes _)]
  split <;> exact List.prefix_append _ _

theorem slash_destination {key : String} (base : String) (none : (ofText key.toList).steps = []) :
    (destination base key).toList = [] ∨ (ofText (destination base key).toList).slash = true := by
  rw [toList_destination, dropSlashes_eq_nil none, join_plain (by simp)]
  split
  · next plain =>
    refine plain.imp (fun empty => by rw [empty]; rfl) fun slash => ?_
    simp only [ofText, List.append_nil, slash, beq_self_eq_true]
  · exact .inr (by simp [ofText])

theorem dots_not_mem_partial {key : String} (plain : ['.', '.'] ∉ key.toList.splitOn '/') :
    ['.', '.'] ∉ (partialName key).toList.splitOn '/' := by
  rw [partialName, String.toList_append]
  exact dots_not_mem_behind (by decide) (by decide) plain

theorem steps_partial (key : String) : (ofText (partialName key).toList).steps ≠ [] := by
  have free : '/' ∉ ".partial".toList := by decide
  obtain ⟨front, piece, -, longer⟩ := splitOn_append_last key.toList free
  rw [← String.toList_append] at longer
  have member : piece ++ ".partial".toList ∈ (partialName key).toList.splitOn '/' := by
    rw [partialName, longer]
    simp
  exact steps_ne_nil member (by simp)

theorem destination_partial (base key : String) :
    destination base (partialName key) = partialName (destination base key) := by
  have dropped : Text.dropSlashes (partialName key).toList =
      Text.dropSlashes key.toList ++ ".partial".toList := by
    rw [partialName, String.toList_append]
    unfold Text.dropSlashes
    rw [List.dropWhile_append]
    split
    · next none =>
      rw [List.isEmpty_iff.mp none]
      rfl
    · rfl
  have other : (Text.dropSlashes key.toList ++ ".partial".toList).head? ≠ some '/' := by
    rw [← dropped]
    exact head_dropSlashes _
  refine String.toList_injective ?_
  rw [toList_destination, dropped, join_plain other, partialName, String.toList_append,
    toList_destination, join_plain (head_dropSlashes _)]
  split <;> simp

end Directory

end Spool
