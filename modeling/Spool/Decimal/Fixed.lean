/-!
Fractions with a fixed number of decimals. The last digit is rounded from the exact value, and a
half goes to the even neighbour. A floating-point number is a fraction too: its mantissa times a
power of two.
-/

namespace Spool

/-- A fraction that is not negative. -/
structure Fraction where
  num : Nat
  den : Nat
  den_pos : 0 < den
  deriving DecidableEq, Repr

namespace Fraction

/-- `mantissa * 2 ^ (up - down)`. -/
def ofBinary (mantissa up down : Nat) : Fraction :=
  ⟨mantissa * Nat.pow 2 up, Nat.pow 2 down, Nat.two_pow_pos down⟩

def storedBits : Nat := 52

def storedCount : Nat := Nat.pow 2 storedBits

/-- The exponent of the last stored bit is the stored exponent less this. -/
def exponentBias : Nat := 1075

/-- The exact value of a finite floating-point number, its sign apart. -/
def ofFloat (x : Float) : Fraction :=
  let bits := x.toBits.toNat
  let stored := bits % storedCount
  let exponent := bits / storedCount % 2048
  if exponent = 0 then ofBinary stored 0 (exponentBias - 1)
  else ofBinary (storedCount + stored) (exponent - exponentBias) (exponentBias - exponent)

/-- The nearest whole number; a half goes to the even one. -/
def round (x : Fraction) : Nat :=
  let floor := x.num / x.den
  let rest := 2 * (x.num % x.den)
  if rest < x.den then floor
  else if x.den < rest then floor + 1
  else if floor % 2 = 0 then floor
  else floor + 1

def scale (x : Fraction) (factor : Nat) : Fraction :=
  ⟨x.num * factor, x.den, x.den_pos⟩

/-- The digits of a number below `10 ^ places`, zeros in front. -/
def padded (places n : Nat) : List Char :=
  let digits := Nat.toDigits 10 n
  List.replicate (places - digits.length) '0' ++ digits

def fixed (places : Nat) (x : Fraction) : String :=
  let unit := Nat.pow 10 places
  let n := (x.scale unit).round
  if places = 0 then toString n
  else String.ofList (Nat.toDigits 10 (n / unit) ++ '.' :: padded places (n % unit))

end Fraction

end Spool
