import Mathlib.Data.List.Basic
import Spool.Decimal.Grouped

/-!
Numbers written in groups of three digits. Without its commas the text holds the number's decimal
digits, none of them a needless zero in front; between the commas there are three digits at a time,
counted from the end.
-/

namespace Spool.Decimal

/-- The digits of a number as it is written in decimal, without needless zeros in front. -/
structure Digits (n : Nat) (digits : List Char) : Prop where
  isDigit : ∀ c ∈ digits, c.isDigit = true
  value : Nat.ofDigitChars 10 digits 0 = n
  nonempty : digits ≠ []
  first : digits.head? = some '0' → digits = ['0']

/-- Three digits in each group, and from one to three in the first. -/
def Threes (groups : List (List Char)) : Prop :=
  ∃ first rest, groups = first :: rest ∧ 1 ≤ first.length ∧ first.length ≤ 3 ∧
    ∀ group ∈ rest, group.length = 3

section Digits

theorem first_toDigits {n : Nat} (zero : (Nat.toDigits 10 n).head? = some '0') :
    Nat.toDigits 10 n = ['0'] := by
  induction n using Nat.strongRecOn with
  | ind n ih =>
    by_cases small : n < 10
    · rw [Nat.toDigits_of_lt_base small] at zero ⊢
      exact congrArg (fun c => [c]) (Option.some.inj zero)
    · have large : 10 ≤ n := Nat.le_of_not_lt small
      rw [Nat.toDigits_of_base_le (by decide) large,
        List.head?_append_of_ne_nil _ Nat.toDigits_ne_nil] at zero
      -- the tenth of the number would be written as zero, and be zero
      have tenth := Nat.ofDigitChars_toDigits (b := 10) (n := n / 10) (by decide) (by decide)
      rw [ih (n / 10) (by omega) zero] at tenth
      have none : n / 10 = 0 := tenth.symm
      omega

theorem digits_toString (n : Nat) : Digits n (toString n).toList := by
  have same : (toString n).toList = Nat.toDigits 10 n := Nat.toList_repr
  rw [same]
  constructor
  · exact fun c member => Nat.isDigit_of_mem_toDigits (by decide) (by decide) member
  · exact Nat.ofDigitChars_toDigits (by decide) (by decide)
  · exact Nat.toDigits_ne_nil
  · exact first_toDigits

theorem Digits.comma {n : Nat} {digits : List Char} (written : Digits n digits) :
    ',' ∉ digits := by
  intro member
  have impossible := written.isDigit ',' member
  revert impossible
  decide

end Digits

section Groups

variable {α : Type}

/-- All runs are full but the last one, which is not empty. -/
theorem inThrees_split (xs : List α) (some : xs ≠ []) : ∃ full last,
    inThrees xs = full ++ [last] ∧ 1 ≤ last.length ∧ last.length ≤ 3 ∧
      ∀ run ∈ full, run.length = 3 := by
  fun_induction inThrees xs with
  | case1 a b c rest ih =>
    cases rest with
    | nil => exact ⟨[], [a, b, c], rfl, Nat.le_add_left 1 2, Nat.le_refl 3, List.forall_mem_nil _⟩
    | cons d rest =>
      obtain ⟨full, last, split, low, high, three⟩ := ih (List.cons_ne_nil d rest)
      refine ⟨[a, b, c] :: full, last, congrArg _ split, low, high, ?_⟩
      intro run member
      rcases List.mem_cons.mp member with rfl | later
      · rfl
      · exact three run later
  | case2 => exact absurd rfl some
  | case3 short long =>
    refine ⟨[], short, rfl, List.length_pos_iff.mpr some, ?_, List.forall_mem_nil _⟩
    rcases short with _ | ⟨a, _ | ⟨b, _ | ⟨c, rest⟩⟩⟩
    · exact absurd rfl some
    · exact Nat.le_add_left 1 2
    · exact Nat.le_succ 2
    · exact absurd rfl (long a b c rest)

theorem inThrees_groups {digits : List Char} (some : digits ≠ []) : Threes (groups digits) := by
  obtain ⟨full, last, split, low, high, three⟩ :=
    inThrees_split digits.reverse (List.reverse_ne_nil_iff.mpr some)
  refine ⟨last.reverse, (full.map List.reverse).reverse, ?_, ?_, ?_, ?_⟩
  · rw [groups, split, List.map_append, List.reverse_append]
    rfl
  · rw [List.length_reverse]
    exact low
  · rw [List.length_reverse]
    exact high
  · intro group member
    obtain ⟨run, known, rfl⟩ := List.mem_map.mp (List.mem_reverse.mp member)
    rw [List.length_reverse]
    exact three run known

theorem Threes.full {groups : List (List Char)} (shape : Threes groups) : [] ∉ groups := by
  obtain ⟨first, rest, rfl, low, _, three⟩ := shape
  intro member
  rcases List.mem_cons.mp member with rfl | later
  · cases low
  · cases three [] later

end Groups

section Commas

variable {sep : Char} {groups : List (List Char)}

theorem filter_intercalate (free : ∀ group ∈ groups, sep ∉ group) :
    ([sep].intercalate groups).filter (· ≠ sep) = groups.flatten := by
  have plain : ∀ group ∈ groups, group.filter (· ≠ sep) = group := by
    intro group member
    refine List.filter_eq_self.mpr fun c inside => decide_eq_true fun same => ?_
    exact free group member (same ▸ inside)
  induction groups with
  | nil => rfl
  | cons group rest ih =>
    have later := ih (fun other member => free other (List.mem_cons_of_mem _ member))
      fun other member => plain other (List.mem_cons_of_mem _ member)
    have own := plain group List.mem_cons_self
    cases rest with
    | nil => rw [List.intercalate_singleton, own, List.flatten_singleton]
    | cons next rest =>
      have comma : [sep].filter (· ≠ sep) = [] := List.filter_cons_of_neg (by simp)
      rw [List.intercalate_cons_cons, List.filter_append, List.filter_append, own, comma, later,
        List.append_nil, ← List.flatten_cons]

theorem head?_intercalate (full : [] ∉ groups) :
    ([sep].intercalate groups).head? = groups.flatten.head? := by
  cases groups with
  | nil => rfl
  | cons group rest =>
    have some : group ≠ [] := fun none => full (none ▸ List.mem_cons_self)
    cases rest with
    | nil => rw [List.intercalate_singleton, List.flatten_singleton]
    | cons next rest =>
      rw [List.intercalate_cons_cons, List.append_assoc, List.head?_append_of_ne_nil _ some,
        List.flatten_cons, List.head?_append_of_ne_nil _ some]

theorem getLast?_intercalate (full : [] ∉ groups) :
    ([sep].intercalate groups).getLast? = groups.flatten.getLast? := by
  induction groups with
  | nil => rfl
  | cons group rest ih =>
    have later := ih fun member => full (List.mem_cons_of_mem _ member)
    cases rest with
    | nil => rw [List.intercalate_singleton, List.flatten_singleton]
    | cons next rest =>
      have some : (next :: rest).flatten ≠ [] := by
        intro none
        rw [List.flatten_cons, List.append_eq_nil_iff] at none
        exact full (List.mem_cons_of_mem _ (none.1 ▸ List.mem_cons_self))
      have other : [sep].intercalate (next :: rest) ≠ [] := by
        intro none
        rw [none, List.getLast?_nil] at later
        exact some (List.getLast?_eq_none_iff.mp later.symm)
      have split : (group :: next :: rest).flatten = group ++ (next :: rest).flatten :=
        List.flatten_cons
      rw [List.intercalate_cons_cons, List.getLast?_append_of_ne_nil _ other, later, split,
        List.getLast?_append_of_ne_nil _ some]

end Commas

theorem toList_grouped (n : Nat) :
    (grouped n).toList = [','].intercalate (groups (toString n).toList) := by
  have plain : (groups (toString n).toList).map (String.toList ∘ String.ofList) =
      groups (toString n).toList :=
    (List.map_congr_left fun _ _ => String.toList_ofList).trans (List.map_id _)
  rw [grouped, String.toList_intercalate, List.map_map, plain]
  rfl

/-- The text of a number: its digits, split by commas into threes from the end on. -/
structure Grouped (n : Nat) (text : List Char) : Prop where
  digits : Digits n (text.filter (· ≠ ','))
  threes : Threes (text.splitOn ',')
  first : text.head? ≠ some ','
  last : text.getLast? ≠ some ','

/-- Groups of digits stay apart when they are joined by commas. -/
theorem grouped_of_groups {n : Nat} {groups : List (List Char)} (written : Digits n groups.flatten)
    (shape : Threes groups) : Grouped n ([','].intercalate groups) := by
  have free : ∀ group ∈ groups, ',' ∉ group := by
    intro group member inside
    exact written.comma (List.mem_flatten.mpr ⟨group, member, inside⟩)
  have some : groups ≠ [] := by
    obtain ⟨first, rest, rfl, _⟩ := shape
    exact List.cons_ne_nil first rest
  constructor
  · rw [filter_intercalate free]
    exact written
  · rw [List.splitOn_intercalate ',' free some]
    exact shape
  · rw [head?_intercalate shape.full]
    exact fun comma => written.comma (List.mem_of_mem_head? comma)
  · rw [getLast?_intercalate shape.full]
    exact fun comma => written.comma (List.mem_of_mem_getLast? comma)

/-- Every number is written in threes, and no two numbers alike. -/
theorem grouped_in_threes (n : Nat) : Grouped n (grouped n).toList ∧
    ∀ other, grouped other = grouped n → other = n := by
  have all : ∀ n, Grouped n (grouped n).toList := by
    intro n
    have written := digits_toString n
    rw [toList_grouped]
    apply grouped_of_groups
    · rw [flatten_groups]
      exact written
    · exact inThrees_groups written.nonempty
  refine ⟨all n, fun other same => ?_⟩
  have value := (all other).digits.value
  rw [same] at value
  exact value.symm.trans (all n).digits.value

example : grouped 1234567 = "1,234,567" := by decide

end Spool.Decimal
