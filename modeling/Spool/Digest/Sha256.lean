import Spool.Digest.Hex

/-!
The SHA-256 digest. A message is padded to blocks of 64 bytes; each block is expanded to 64 words
and mixed into eight chaining words, which are the digest after the last block.
-/

namespace Spool.Sha256

structure State where
  a : UInt32
  b : UInt32
  c : UInt32
  d : UInt32
  e : UInt32
  f : UInt32
  g : UInt32
  h : UInt32
  deriving DecidableEq, Repr

/-- The first 32 bits of the fractional parts of the square roots of the first eight primes. -/
def initial : State :=
  ⟨0x6a09e667, 0xbb67ae85, 0x3c6ef372, 0xa54ff53a, 0x510e527f, 0x9b05688c, 0x1f83d9ab, 0x5be0cd19⟩

/-- The first 32 bits of the fractional parts of the cube roots of the first 64 primes. -/
def constants : Array UInt32 :=
  #[0x428a2f98, 0x71374491, 0xb5c0fbcf, 0xe9b5dba5, 0x3956c25b, 0x59f111f1, 0x923f82a4, 0xab1c5ed5,
   0xd807aa98, 0x12835b01, 0x243185be, 0x550c7dc3, 0x72be5d74, 0x80deb1fe, 0x9bdc06a7, 0xc19bf174,
   0xe49b69c1, 0xefbe4786, 0x0fc19dc6, 0x240ca1cc, 0x2de92c6f, 0x4a7484aa, 0x5cb0a9dc, 0x76f988da,
   0x983e5152, 0xa831c66d, 0xb00327c8, 0xbf597fc7, 0xc6e00bf3, 0xd5a79147, 0x06ca6351, 0x14292967,
   0x27b70a85, 0x2e1b2138, 0x4d2c6dfc, 0x53380d13, 0x650a7354, 0x766a0abb, 0x81c2c92e, 0x92722c85,
   0xa2bfe8a1, 0xa81a664b, 0xc24b8b70, 0xc76c51a3, 0xd192e819, 0xd6990624, 0xf40e3585, 0x106aa070,
   0x19a4c116, 0x1e376c08, 0x2748774c, 0x34b0bcb5, 0x391c0cb3, 0x4ed8aa4a, 0x5b9cca4f, 0x682e6ff3,
   0x748f82ee, 0x78a5636f, 0x84c87814, 0x8cc70208, 0x90befffa, 0xa4506ceb, 0xbef9a3f7, 0xc67178f2]

def rotate (x n : UInt32) : UInt32 :=
  (x >>> n) ||| (x <<< (32 - n))

def sigma0 (x : UInt32) : UInt32 :=
  rotate x 7 ^^^ rotate x 18 ^^^ (x >>> 3)

def sigma1 (x : UInt32) : UInt32 :=
  rotate x 17 ^^^ rotate x 19 ^^^ (x >>> 10)

def sum0 (x : UInt32) : UInt32 :=
  rotate x 2 ^^^ rotate x 13 ^^^ rotate x 22

def sum1 (x : UInt32) : UInt32 :=
  rotate x 6 ^^^ rotate x 11 ^^^ rotate x 25

def choose (x y z : UInt32) : UInt32 :=
  (x &&& y) ^^^ ((x ^^^ 0xffffffff) &&& z)

def majority (x y z : UInt32) : UInt32 :=
  (x &&& y) ^^^ (x &&& z) ^^^ (y &&& z)

/-- Zero bytes between the closing bit and the length, so that the padded size is a multiple
of 64. -/
def paddingZeros (size : Nat) : Nat :=
  (119 - size % 64) % 64

/-- The length in bits as eight bytes, highest first. -/
def lengthBytes (size : Nat) : List UInt8 :=
  (List.range 8).map fun i => UInt8.ofNat ((8 * size) >>> (56 - 8 * i))

def padding (size : Nat) : List UInt8 :=
  0x80 :: (List.replicate (paddingZeros size) 0 ++ lengthBytes size)

def pad (message : ByteArray) : ByteArray :=
  (padding message.size).foldl ByteArray.push message

/-- The four bytes from `at_` on as one word, highest byte first. -/
def wordAt (bytes : ByteArray) (at_ : Nat) : UInt32 :=
  (bytes.get! at_).toUInt32 <<< 24 ||| (bytes.get! (at_ + 1)).toUInt32 <<< 16 |||
    (bytes.get! (at_ + 2)).toUInt32 <<< 8 ||| (bytes.get! (at_ + 3)).toUInt32

/-- The 64 words of the block that starts at `start`: its own sixteen and those derived from them. -/
def schedule (bytes : ByteArray) (start : Nat) : Array UInt32 :=
  let own := Nat.fold 16 (fun i _ (w : Array UInt32) => w.push (wordAt bytes (start + 4 * i)))
    (Array.mkEmpty 64)
  Nat.fold 48 (fun i _ w =>
    w.push (w[i]! + sigma0 w[i + 1]! + w[i + 9]! + sigma1 w[i + 14]!)) own

def round (s : State) (constant word : UInt32) : State :=
  let t1 := s.h + sum1 s.e + choose s.e s.f s.g + constant + word
  let t2 := sum0 s.a + majority s.a s.b s.c
  ⟨t1 + t2, s.a, s.b, s.c, s.d + t1, s.e, s.f, s.g⟩

def compress (s : State) (bytes : ByteArray) (start : Nat) : State :=
  let words := schedule bytes start
  let r := Nat.fold 64 (fun i _ r => round r constants[i]! words[i]!) s
  ⟨s.a + r.a, s.b + r.b, s.c + r.c, s.d + r.d, s.e + r.e, s.f + r.f, s.g + r.g, s.h + r.h⟩

def wordBytes (w : UInt32) : List UInt8 :=
  [(w >>> 24).toUInt8, (w >>> 16).toUInt8, (w >>> 8).toUInt8, w.toUInt8]

def State.bytes (s : State) : List UInt8 :=
  [s.a, s.b, s.c, s.d, s.e, s.f, s.g, s.h].flatMap wordBytes

def digest (message : ByteArray) : List UInt8 :=
  let padded := pad message
  (Nat.fold (padded.size / 64) (fun i _ s => compress s padded (64 * i)) initial).bytes

def hex (message : ByteArray) : String :=
  String.ofList (Hex.encode (digest message))

theorem length_digest (message : ByteArray) : (digest message).length = 32 := rfl

theorem length_hex (message : ByteArray) : (hex message).toList.length = 64 := by
  simp only [hex, String.toList_ofList, Hex.length_encode, length_digest]

end Spool.Sha256
