import Spool.Flate.Inflate

/-!
Compressed streams: a header of two bytes, the blocks, and a checksum of the content.
-/

namespace Spool.Flate

/-- Both sums of the Adler-32 checksum are taken modulo this prime. -/
def adlerModulus : Nat := 65521

def adlerStep (sums : Nat × Nat) (byte : UInt8) : Nat × Nat :=
  let low := (sums.1 + byte.toNat) % adlerModulus
  (low, (sums.2 + low) % adlerModulus)

def adler32 (content : ByteArray) : Nat :=
  let (low, high) := content.foldl adlerStep (1, 0)
  high * 65536 + low

def checksumBytes (n : Nat) : List UInt8 :=
  [UInt8.ofNat (n / 16777216), UInt8.ofNat (n / 65536), UInt8.ofNat (n / 256), UInt8.ofNat n]

namespace Stream

/-- Window of 32 KiB, no preset dictionary, default effort. -/
def header : List UInt8 := [0x78, 0x9c]

def compress (content : ByteArray) : ByteArray :=
  let body := Bits.pack (header.foldl ByteArray.push .empty) (blocks content)
  (checksumBytes (adler32 content)).foldl ByteArray.push body

/-- The two header bytes announce this format without a preset dictionary. -/
def accepts (method flags : UInt8) : Bool :=
  method % 16 == 8 && method / 16 ≤ 7 && (method.toNat * 256 + flags.toNat) % 31 == 0
    && flags &&& 0x20 == 0

/-- The content of a stream; `none` unless header, blocks and checksum are right and nothing
follows. -/
def decompress? (stream : ByteArray) : Option ByteArray :=
  match stream.toList with
  | method :: flags :: body =>
    if accepts method flags then
      match Inflate.inflate? (Bits.ofBytes body) with
      | none => none
      | some (content, rest) =>
        if Inflate.align rest = Bits.ofBytes (checksumBytes (adler32 content)) then some content
        else none
    else none
  | _ => none

end Stream

end Spool.Flate
