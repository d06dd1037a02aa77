import Spool.Decimal.Fixed

/-!
Sizes in bytes for people: the largest binary unit that leaves at least one, and two decimals where
the number is not whole. A size is first rounded to the precision of a floating-point number.
-/

namespace Spool.Size

def units : List String := ["B", "KiB", "MiB", "GiB", "TiB", "PiB", "EiB"]

def step : Nat := 1024

/-- The nearest number with a mantissa of 53 bits; a half goes to the even one. -/
def toPrecision (n : Nat) : Nat :=
  let spare := n.log2 - Fraction.storedBits
  (Fraction.ofBinary n 0 spare).round * Nat.pow 2 spare

/-- How many times a number can be divided before it is below `step`, at most `most` times. -/
def rank (n : Nat) : (most : Nat) → Nat
  | 0 => 0
  | most + 1 => if n < step then 0 else rank (n / step) most + 1

/-- A number that is this close to a whole one is shown as whole. -/
def isWhole (x : Fraction) : Bool :=
  x.num % x.den * Fraction.storedCount ≤ x.den

def text (bytes : Nat) : String :=
  let n := toPrecision bytes
  let unit := rank n (units.length - 1)
  let shown : Fraction := ⟨n, Nat.pow step unit, Nat.pow_pos (by decide)⟩
  let places := if isWhole shown then 0 else 2
  shown.fixed places ++ " " ++ units.getD unit ""

end Spool.Size
