/-!
Bytes written as lowercase hexadecimal digits, two for each byte.
-/

namespace Spool.Hex

def digit (n : UInt8) : Char :=
  if n < 10 then Char.ofNat (48 + n.toNat) else Char.ofNat (87 + n.toNat)

def ofByte (b : UInt8) : List Char :=
  [digit (b >>> 4), digit (b &&& 15)]

def encode (bytes : List UInt8) : List Char :=
  bytes.flatMap ofByte

theorem length_encode (bytes : List UInt8) : (encode bytes).length = 2 * bytes.length := by
  induction bytes with
  | nil => rfl
  | cons b bs ih =>
    simp only [encode, List.flatMap_cons, List.length_append] at ih ⊢
    simp only [ofByte, List.length_cons, List.length_nil, ih]
    omega

end Spool.Hex
