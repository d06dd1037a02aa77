/-!
Bits and bytes. A number is written with its lowest bit first, and the bits of a stream fill each
byte from its lowest bit on; the last byte is filled up with zeros.
-/

namespace Spool.Flate

abbrev Bits := List Bool

namespace Bits

def ofNat : Nat → Nat → Bits
  | 0, _ => []
  | count + 1, n => (n % 2 == 1) :: ofNat count (n / 2)

def toNat : Bits → Nat
  | [] => 0
  | b :: bs => b.toNat + 2 * toNat bs

/-- The lowest `count` bits of a number, highest first, as code words are written. -/
def codeWord (count n : Nat) : Bits :=
  (ofNat count n).reverse

def ofBytes (bytes : List UInt8) : Bits :=
  bytes.flatMap fun b => ofNat 8 b.toNat

def pack (out : ByteArray) (bits : Bits) : ByteArray :=
  match bits with
  | a :: b :: c :: d :: e :: f :: g :: h :: rest =>
    pack (out.push (UInt8.ofNat (toNat [a, b, c, d, e, f, g, h]))) rest
  | [] => out
  | rest => out.push (UInt8.ofNat (toNat rest))

def take? : Nat → Bits → Option (Nat × Bits)
  | 0, bits => some (0, bits)
  | _ + 1, [] => none
  | count + 1, b :: bits => (take? count bits).map fun (n, rest) => (b.toNat + 2 * n, rest)

theorem length_ofNat (count n : Nat) : (ofNat count n).length = count := by
  induction count generalizing n with
  | zero => rfl
  | succ count ih => simp only [ofNat, List.length_cons, ih]

theorem take?_ofNat {count n : Nat} (small : n < Nat.pow 2 count) (rest : Bits) :
    take? count (ofNat count n ++ rest) = some (n, rest) := by
  induction count generalizing n with
  | zero =>
    have zero : n = 0 := Nat.lt_one_iff.mp small
    simp only [ofNat, List.nil_append, take?, zero]
  | succ count ih =>
    have double : Nat.pow 2 (count + 1) = Nat.pow 2 count * 2 := rfl
    have half : n / 2 < Nat.pow 2 count := by rw [double] at small; omega
    have low : (n % 2 == 1).toNat = n % 2 := by
      rcases Nat.mod_two_eq_zero_or_one n with h | h <;> rw [h] <;> rfl
    simp only [ofNat, List.cons_append, take?, ih half, Option.map_some, low]
    congr 2
    omega

end Bits

end Spool.Flate
