import Spool.Flate.Code

/-!
Word lengths in a short form: a length as it is, the length before it some more times, or a number
of zeros. Reading runs gives back the lengths that they were made from.
-/

namespace Spool.Flate

inductive Run
  | one (length : Nat)
  /-- The length before comes three to six times more. -/
  | again (count : Nat)
  /-- Three to 138 zeros. -/
  | zeros (count : Nat)
  deriving DecidableEq, Repr

namespace Run

def symbolCount : Nat := 19

def symbol : Run → Nat
  | one length => length
  | again _ => 16
  | zeros count => if count ≤ 10 then 17 else 18

def extra : Run → Nat × Nat
  | one _ => (0, 0)
  | again count => (2, count - 3)
  | zeros count => if count ≤ 10 then (3, count - 3) else (7, count - 11)

def ofSymbol? (symbol : Nat) (bits : Bits) : Option (Run × Bits) :=
  if symbol < 16 then some (one symbol, bits)
  else if symbol = 16 then (Bits.take? 2 bits).map fun (n, bits) => (again (3 + n), bits)
  else if symbol = 17 then (Bits.take? 3 bits).map fun (n, bits) => (zeros (3 + n), bits)
  else (Bits.take? 7 bits).map fun (n, bits) => (zeros (11 + n), bits)

/-- Puts what a run stands for in front of the lengths before it, which come newest first. -/
def extend? (found : List Nat) : Run → Option (List Nat)
  | one length => some (length :: found)
  | again count => found.head?.map fun length => List.replicate count length ++ found
  | zeros count => some (List.replicate count 0 ++ found)

/-- What runs stand for, behind the given lengths, newest first. -/
def extendAll? : List Nat → List Run → Option (List Nat)
  | found, [] => some found
  | found, r :: rest => (r.extend? found).bind fun found => extendAll? found rest

def groups : List Nat → List (Nat × Nat)
  | [] => []
  | n :: rest =>
    match groups rest with
    | (m, count) :: more => if n = m then (m, count + 1) :: more else (n, 1) :: (m, count) :: more
    | [] => [(n, 1)]

/-- So many of one length, in as few runs as can be; less than three are given one by one. -/
def ofGroup : Nat × Nat → List Run
  | (0, count) =>
    let rest := count % 138
    List.replicate (count / 138) (zeros 138) ++
      if rest < 3 then List.replicate rest (one 0) else [zeros rest]
  | (length, count) =>
    let rest := (count - 1) % 6
    one length :: List.replicate ((count - 1) / 6) (again 6) ++
      if rest < 3 then List.replicate rest (one length) else [again rest]

def ofLengths (lengths : List Nat) : List Run :=
  (groups lengths).flatMap ofGroup

theorem extendAll?_append (found : List Nat) (a b : List Run) :
    extendAll? found (a ++ b) = (extendAll? found a).bind fun found => extendAll? found b := by
  induction a generalizing found with
  | nil => rfl
  | cons r a ih =>
    simp only [List.cons_append, extendAll?]
    cases r.extend? found with
    | none => rfl
    | some found => exact ih found

theorem flatMap_groups (lengths : List Nat) :
    (groups lengths).flatMap (fun g => List.replicate g.2 g.1) = lengths := by
  induction lengths with
  | nil => rfl
  | cons n rest ih =>
    unfold groups
    split
    · next m count more found =>
      rw [found, List.flatMap_cons] at ih
      split
      · next same => rw [List.flatMap_cons, List.replicate_succ, List.cons_append, ih, same]
      · rw [List.flatMap_cons, List.flatMap_cons, List.replicate_one, ih, List.singleton_append]
    · next none =>
      rw [none, List.flatMap_nil] at ih
      rw [← ih]
      rfl

theorem groups_pos {lengths : List Nat} {g : Nat × Nat} (within : g ∈ groups lengths) : 0 < g.2 := by
  induction lengths generalizing g with
  | nil => exact absurd within List.not_mem_nil
  | cons n rest ih =>
    unfold groups at within
    split at within
    · next m count more found =>
      split at within
      · rcases List.mem_cons.mp within with rfl | later
        · exact Nat.succ_pos count
        · exact ih (found ▸ List.mem_cons_of_mem _ later)
      · rcases List.mem_cons.mp within with rfl | later
        · exact Nat.one_pos
        · exact ih (found ▸ later)
    · rw [List.mem_singleton.mp within]
      exact Nat.one_pos

theorem extendAll?_ones (found : List Nat) (length count : Nat) :
    extendAll? found (List.replicate count (one length)) =
      some (List.replicate count length ++ found) := by
  induction count generalizing found with
  | zero => rfl
  | succ count ih =>
    rw [List.replicate_succ, List.replicate_succ', List.append_assoc]
    exact ih (length :: found)

theorem extendAll?_zeros (found : List Nat) (times count : Nat) :
    extendAll? found (List.replicate times (zeros count)) =
      some (List.replicate (times * count) 0 ++ found) := by
  induction times generalizing found with
  | zero => simp only [List.replicate_zero, extendAll?, Nat.zero_mul, List.nil_append]
  | succ times ih =>
    rw [List.replicate_succ, extendAll?, extend?, Option.bind_some, ih, ← List.append_assoc,
      List.replicate_append_replicate, Nat.succ_mul]

theorem extendAll?_again (found : List Nat) (length times count : Nat) :
    extendAll? (length :: found) (List.replicate times (again count)) =
      some (List.replicate (times * count) length ++ length :: found) := by
  induction times generalizing found with
  | zero => simp only [List.replicate_zero, extendAll?, Nat.zero_mul, List.nil_append]
  | succ times ih =>
    have shift (n : Nat) : List.replicate n length ++ length :: found =
        length :: (List.replicate n length ++ found) := by
      rw [← List.cons_append, ← List.replicate_succ, List.replicate_succ', List.append_assoc,
        List.singleton_append]
    rw [List.replicate_succ, extendAll?, extend?, List.head?_cons, Option.map_some,
      Option.bind_some, shift, ih, ← shift, ← List.append_assoc, List.replicate_append_replicate,
      Nat.succ_mul]

theorem extendAll?_ofGroup (found : List Nat) {g : Nat × Nat} (positive : 0 < g.2) :
    extendAll? found (ofGroup g) = some (List.replicate g.2 g.1 ++ found) := by
  obtain ⟨length, count⟩ := g
  have rest (n : Nat) : List.replicate n length ++ length :: found =
      List.replicate (n + 1) length ++ found := by
    rw [List.replicate_succ', List.append_assoc, List.singleton_append]
  cases length with
  | zero =>
    have total : count / 138 * 138 + count % 138 = count := by omega
    simp only [ofGroup, extendAll?_append, extendAll?_zeros, Option.bind_some]
    split
    · rw [extendAll?_ones, ← List.append_assoc, List.replicate_append_replicate, Nat.add_comm, total]
    · rw [extendAll?, extend?, Option.bind_some, extendAll?, ← List.append_assoc,
        List.replicate_append_replicate, Nat.add_comm, total]
  | succ length =>
    have total : (count - 1) / 6 * 6 + (count - 1) % 6 + 1 = count := by
      simp only at positive
      omega
    simp only [ofGroup, List.cons_append, extendAll?, extend?, Option.bind_some, extendAll?_append,
      extendAll?_again]
    split
    · rw [extendAll?_ones, ← List.append_assoc, List.replicate_append_replicate, rest,
        Nat.add_comm ((count - 1) % 6), total]
    · rw [rest, List.replicate_succ, List.cons_append]
      simp only [extendAll?, extend?, List.head?_cons, Option.map_some, Option.bind_some]
      rw [← List.cons_append, ← List.replicate_succ, ← List.append_assoc,
        List.replicate_append_replicate, Nat.add_comm, Nat.add_right_comm, total]

theorem extendAll?_ofLengths (lengths : List Nat) :
    extendAll? [] (ofLengths lengths) = some lengths.reverse := by
  have grown (groups : List (Nat × Nat)) (found : List Nat) (positive : ∀ g ∈ groups, 0 < g.2) :
      extendAll? found (groups.flatMap ofGroup) =
        some ((groups.flatMap fun g => List.replicate g.2 g.1).reverse ++ found) := by
    induction groups generalizing found with
    | nil => rfl
    | cons g groups ih =>
      rw [List.flatMap_cons, extendAll?_append,
        extendAll?_ofGroup found (positive g List.mem_cons_self), Option.bind_some,
        ih _ fun h within => positive h (List.mem_cons_of_mem g within), List.flatMap_cons,
        List.reverse_append, List.append_assoc, List.reverse_replicate]
  rw [ofLengths, grown _ _ fun _ within => groups_pos within, flatMap_groups, List.append_nil]

end Run

end Spool.Flate
