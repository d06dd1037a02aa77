import Spool.Flate.Block

/-!
Reading blocks: stored, with the fixed code, or with a code that the block itself describes.
Every symbol takes at least one bit, so as many symbols as there are bits are enough.
-/

namespace Spool.Flate.Inflate

/-- A value from its row in a table and the extra bits that follow. -/
def value? (table : List (Nat × Nat)) (row : Nat) (bits : Bits) : Option (Nat × Bits) :=
  match table[row]? with
  | none => none
  | some (base, extra) => (Bits.take? extra bits).map fun (more, bits) => (base + more, bits)

def copy? (distances : Code) (row : Nat) (out : ByteArray) (bits : Bits) :
    Option (ByteArray × Bits) := do
  let (length, bits) ← value? lengthTable row bits
  let (row, bits) ← distances.read? bits
  let (distance, bits) ← value? distanceTable row bits
  let out ← Token.expand? out (.copy length distance)
  return (out, bits)

def symbols? (literals distances : Code) :
    (fuel : Nat) → ByteArray → Bits → Option (ByteArray × Bits)
  | 0, _, _ => none
  | fuel + 1, out, bits =>
    match literals.read? bits with
    | none => none
    | some (symbol, bits) =>
      if symbol < endOfBlock then
        symbols? literals distances fuel (out.push (UInt8.ofNat symbol)) bits
      else if symbol = endOfBlock then some (out, bits)
      else
        (copy? distances (symbol - (endOfBlock + 1)) out bits).bind fun (out, bits) =>
          symbols? literals distances fuel out bits

/-- Drops the bits up to the next whole byte. Streams are whole bytes, so the bits left tell how
many. -/
def align (bits : Bits) : Bits :=
  bits.drop (bits.length % 8)

def bytes? : (count : Nat) → ByteArray → Bits → Option (ByteArray × Bits)
  | 0, out, bits => some (out, bits)
  | count + 1, out, bits =>
    match Bits.take? 8 bits with
    | none => none
    | some (byte, bits) => bytes? count (out.push (UInt8.ofNat byte)) bits

/-- A stored block: its size, the size again with all bits turned, and the bytes. -/
def stored? (out : ByteArray) (bits : Bits) : Option (ByteArray × Bits) :=
  match Bits.take? 16 (align bits) with
  | none => none
  | some (size, bits) =>
    match Bits.take? 16 bits with
    | none => none
    | some (turned, bits) => if size + turned = 0xffff then bytes? size out bits else none

def threes? : Nat → Bits → Option (List Nat × Bits)
  | 0, bits => some ([], bits)
  | count + 1, bits =>
    match Bits.take? 3 bits with
    | none => none
    | some (n, bits) => (threes? count bits).map fun (ns, bits) => (n :: ns, bits)

def placed (given : List Nat) : List Nat :=
  (List.range lengthOrder.length).map fun place =>
    ((lengthOrder.zip given).lookup place).getD 0

/-- Reads runs until they stand for so many word lengths. These are collected newest first. -/
def lengths? (code : Code) (wanted : Nat) :
    (fuel : Nat) → List Nat → Bits → Option (List Nat × Bits)
  | 0, _, _ => none
  | fuel + 1, found, bits =>
    if wanted < found.length then none
    else if found.length = wanted then some (found.reverse, bits)
    else
      match code.read? bits with
      | none => none
      | some (symbol, bits) =>
        match Run.ofSymbol? symbol bits with
        | none => none
        | some (run, bits) =>
          match run.extend? found with
          | none => none
          | some found => lengths? code wanted fuel found bits

def codes? (bits : Bits) : Option (Code × Code × Bits) := do
  let (literals, bits) ← Bits.take? 5 bits
  let (distances, bits) ← Bits.take? 5 bits
  let (given, bits) ← Bits.take? 4 bits
  let (given, bits) ← threes? (given + 4) bits
  let code ← Code.ofLengths? (placed given)
  let literals := literals + (endOfBlock + 1)
  let (lengths, bits) ← lengths? code (literals + (distances + 1)) (bits.length + 1) [] bits
  let first ← Code.ofLengths? (lengths.take literals)
  let second ← Code.ofLengths? (lengths.drop literals)
  return (first, second, bits)

def block? (out : ByteArray) (bits : Bits) : Option (Bool × ByteArray × Bits) :=
  match bits with
  | last :: false :: false :: bits => (stored? out bits).map fun r => (last, r)
  | last :: true :: false :: bits => do
    let literals ← Code.ofLengths? fixedLengths
    let distances ← Code.ofLengths? fixedDistances
    let r ← symbols? literals distances (bits.length + 1) out bits
    return (last, r)
  | last :: false :: true :: bits => do
    let (literals, distances, bits) ← codes? bits
    let r ← symbols? literals distances (bits.length + 1) out bits
    return (last, r)
  | _ => none

def blocks? : (fuel : Nat) → ByteArray → Bits → Option (ByteArray × Bits)
  | 0, _, _ => none
  | fuel + 1, out, bits =>
    match block? out bits with
    | none => none
    | some (true, r) => some r
    | some (false, out, bits) => blocks? fuel out bits

/-- Reads the blocks at the front of some bits: the content and what follows. -/
def inflate? (bits : Bits) : Option (ByteArray × Bits) :=
  blocks? (bits.length + 1) .empty bits

end Spool.Flate.Inflate
