/-!
Whole numbers in groups of three digits, of which the first may be shorter. The groups are counted
from the last digit on, and together they hold all digits in their order.
-/

namespace Spool.Decimal

/-- The list in runs of three; the last one may be shorter. -/
def inThrees {α : Type} : List α → List (List α)
  | a :: b :: c :: rest => [a, b, c] :: inThrees rest
  | [] => []
  | short => [short]

/-- Digits are taken from the end in threes, then each group and their list are turned round. -/
def groups (digits : List Char) : List (List Char) :=
  ((inThrees digits.reverse).map List.reverse).reverse

def grouped (n : Nat) : String :=
  ",".intercalate ((groups (toString n).toList).map String.ofList)

theorem flatten_inThrees {α : Type} (xs : List α) : (inThrees xs).flatten = xs := by
  fun_induction inThrees xs with
  | case1 a b c rest ih => simp [ih]
  | case2 => rfl
  | case3 short => simp

theorem flatten_groups (digits : List Char) : (groups digits).flatten = digits := by
  rw [groups, ← List.reverse_flatten, flatten_inThrees, List.reverse_reverse]

end Spool.Decimal
