/-!
Slashes at the ends of a text, the cut at a first separator, and the pieces between separators.
What is removed is slashes only, and what is left does not begin (or end) with one.
-/

namespace Spool.Text

def dropSlashes (cs : List Char) : List Char :=
  cs.dropWhile (· == '/')

def dropEndSlashes : List Char → List Char
  | [] => []
  | c :: cs =>
    match dropEndSlashes cs with
    | [] => if c = '/' then [] else [c]
    | rest => c :: rest

/-- The text before the first `sep` and the text behind it; `none` when there is no `sep`. -/
def cutAt (sep : Char) : List Char → Option (List Char × List Char)
  | [] => none
  | c :: cs => if c = sep then some ([], cs) else (cutAt sep cs).map fun r => (c :: r.1, r.2)

def holds (part : List Char) : List Char → Bool
  | [] => part.isEmpty
  | c :: cs => part.isPrefixOf (c :: cs) || holds part cs

theorem cutAt_eq_some {sep : Char} {cs l r : List Char} (h : cutAt sep cs = some (l, r)) :
    cs = l ++ sep :: r ∧ sep ∉ l := by
  induction cs generalizing l with
  | nil => cases h
  | cons c cs ih =>
    simp only [cutAt] at h
    split at h
    · next same =>
      cases h
      exact ⟨by rw [same, List.nil_append], List.not_mem_nil⟩
    · next other =>
      obtain ⟨⟨l', r'⟩, hcut, heq⟩ := Option.map_eq_some_iff.mp h
      cases heq
      have tail := ih hcut
      refine ⟨by rw [tail.1, List.cons_append], ?_⟩
      intro mem
      cases mem with
      | head => exact other rfl
      | tail _ mem => exact tail.2 mem

theorem cutAt_append {sep : Char} {l : List Char} (free : sep ∉ l) (r : List Char) :
    cutAt sep (l ++ sep :: r) = some (l, r) := by
  induction l with
  | nil => simp only [List.nil_append, cutAt, if_pos]
  | cons c l ih =>
    have apart : c ≠ sep := fun same => free (same ▸ List.mem_cons_self)
    have rest := ih fun mem => free (List.mem_cons_of_mem c mem)
    simp only [List.cons_append, cutAt, if_neg apart, rest, Option.map_some]

theorem cutAt_eq_none_iff {sep : Char} {cs : List Char} : cutAt sep cs = none ↔ sep ∉ cs := by
  induction cs with
  | nil => exact ⟨fun _ => List.not_mem_nil, fun _ => rfl⟩
  | cons c cs ih =>
    by_cases same : c = sep
    · have found : cutAt sep (c :: cs) = some ([], cs) := if_pos same
      rw [found]
      constructor
      · intro impossible; cases impossible
      · intro free; exact False.elim (free (same ▸ List.mem_cons_self))
    · have swap : ¬ sep = c := fun h => same h.symm
      simp only [cutAt, if_neg same, Option.map_eq_none_iff, ih, List.mem_cons, swap, false_or]

theorem not_mem_of_mem_splitOn {sep : Char} {cs piece : List Char} (member : piece ∈ cs.splitOn sep) :
    sep ∉ piece := by
  induction cs generalizing piece with
  | nil =>
    simp only [List.splitOn_nil, List.mem_singleton] at member
    simp [member]
  | cons c cs ih =>
    rw [List.splitOn_cons_eq_if_modifyHead] at member
    split at member
    · rcases List.mem_cons.mp member with rfl | later
      · exact List.not_mem_nil
      · exact ih later
    · next other =>
      cases pieces : cs.splitOn sep with
      | nil => exact absurd pieces (List.splitOn_ne_nil _ _)
      | cons first rest =>
        rw [pieces] at ih member
        rcases List.mem_cons.mp member with rfl | later
        · intro bad
          rcases List.mem_cons.mp bad with same | later
          · exact other (by simp [← same])
          · exact ih List.mem_cons_self later
        · exact ih (List.mem_cons_of_mem _ later)

theorem length_splitOn (sep : Char) (cs : List Char) :
    (cs.splitOn sep).length = cs.count sep + 1 := by
  induction cs with
  | nil => rfl
  | cons c cs ih =>
    rw [List.splitOn_cons_eq_if_modifyHead, List.count_cons]
    split
    · rw [List.length_cons, ih]
    · rw [List.length_modifyHead, ih, Nat.add_zero]

end Spool.Text
