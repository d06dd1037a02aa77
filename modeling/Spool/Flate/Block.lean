import Spool.Flate.Code
import Spool.Flate.Run
import Spool.Flate.Segment
import Spool.Flate.WordLength

/-!
Segments as blocks: with the fixed code, with a code that the block itself describes, or stored as
they are where a code does not shorten them.
-/

namespace Spool.Flate

def Token.literalSymbol : Token → Nat
  | .literal byte => byte.toNat
  | .copy length _ => endOfBlock + 1 + (split lengthTable length).1

def Token.distanceSymbol? : Token → Option Nat
  | .literal _ => none
  | .copy _ distance => some (split distanceTable distance).1

def Token.bits (literals distances : Words) : Token → Bits
  | .literal byte => literals.word byte.toNat
  | .copy length distance =>
    let (row, extra, left) := split lengthTable length
    let (far, more, rest) := split distanceTable distance
    literals.word (endOfBlock + 1 + row) ++ Bits.ofNat extra left ++ distances.word far ++
      Bits.ofNat more rest

def coded (literals distances : Words) (tokens : List Token) : Bits :=
  tokens.flatMap (Token.bits literals distances) ++ literals.word endOfBlock

def literalSymbols (tokens : List Token) : List Nat :=
  endOfBlock :: tokens.map Token.literalSymbol

def distanceSymbols (tokens : List Token) : List Nat :=
  tokens.filterMap Token.distanceSymbol?

/-- The words of a code given by lengths; all are empty if the lengths give no code. -/
def wordsOf (lengths : List Nat) : Words :=
  ((Code.ofLengths? lengths).getD []).words lengths.length

def fixedLiteralWords : Words := wordsOf fixedLengths

def fixedDistanceWords : Words := wordsOf fixedDistances

def fixedBlock (tokens : List Token) : Bits :=
  true :: false :: coded fixedLiteralWords fixedDistanceWords tokens

def tally (count : Nat) (symbols : List Nat) : List Nat :=
  (symbols.foldl (fun counts symbol => counts.modify symbol (· + 1)) (Array.replicate count 0)).toList

/-- Drops zeros at the end, but keeps so many numbers. -/
def trimmed (least : Nat) (numbers : List Nat) : List Nat :=
  numbers.take (max least (numbers.length - (numbers.reverse.takeWhile (· = 0)).length))

/-- The order in which a block gives the word lengths of the code for word lengths. -/
def lengthOrder : List Nat :=
  [16, 17, 18, 0, 8, 7, 9, 6, 10, 5, 11, 4, 12, 3, 13, 2, 14, 1, 15]

def maxRunWord : Nat := 7

def runBits (words : Words) (runs : List Run) : Bits :=
  runs.flatMap fun r => words.word r.symbol ++ Bits.ofNat r.extra.1 r.extra.2

/-- The description of two codes: the numbers of their symbols, the word lengths of the code for
word lengths, and in that code their own; `none` if the runs cannot be written in it. -/
def description? (literals distances : List Nat) : Option Bits :=
  let runs := Run.ofLengths (literals ++ distances)
  let lengths := WordLength.ofCounts maxRunWord (tally Run.symbolCount (runs.map Run.symbol))
  let given := trimmed 4 (lengthOrder.map fun symbol => lengths.getD symbol 0)
  let words := wordsOf lengths
  if words.cover (runs.map Run.symbol) then
    some (Bits.ofNat 5 (literals.length - (endOfBlock + 1)) ++
      Bits.ofNat 5 (distances.length - 1) ++ Bits.ofNat 4 (given.length - 4) ++
      given.flatMap (Bits.ofNat 3) ++ runBits words runs)
  else none

/-- A block in a code of its own, less its first bit; `none` if some symbol has no word in it. -/
def ownBlock? (tokens : List Token) : Option Bits :=
  let literalLengths := trimmed (endOfBlock + 1)
    (WordLength.ofCounts Code.maxWord (tally literalCount (literalSymbols tokens)))
  let distanceLengths := trimmed 1
    (WordLength.ofCounts Code.maxWord (tally distanceCount (distanceSymbols tokens)))
  let literals := wordsOf literalLengths
  let distances := wordsOf distanceLengths
  if literals.cover (literalSymbols tokens) && distances.cover (distanceSymbols tokens) then
    (description? literalLengths distanceLengths).map fun description =>
      false :: true :: (description ++ coded literals distances tokens)
  else none

/-- Segments of less than this size are written in the fixed code. -/
def minOwn : Nat := 48

def codedBlock (s : Segment) : Bits :=
  if s.size < minOwn then fixedBlock s.tokens
  else (ownBlock? s.tokens).getD (fixedBlock s.tokens)

/-- The bits that end a byte in which `used` bits were written. -/
def alignment (used : Nat) : Bits :=
  List.replicate ((8 - used % 8) % 8) false

/-- A stored block behind `used` bits: it is filled up to a byte, then come the size, the size again
with all bits turned, and the bytes. -/
def storedBlock (used : Nat) (content : List UInt8) : Bits :=
  [false, false, false] ++ alignment (used + 3) ++ Bits.ofNat 16 content.length ++
    Bits.ofNat 16 (0xffff - content.length) ++ Bits.ofBytes content

def maxStored : Nat := 0xffff

/-- Content of this size or less is never stored: a code costs it less than the size fields. -/
def minStored : Nat := 32

/-- A segment is stored if it can be and its block in a code, behind `used` bits, gains no byte. -/
def isStored (used : Nat) (s : Segment) (code : Bits) : Bool :=
  minStored < s.size && s.size ≤ maxStored && s.isRecent &&
    s.size ≤ (used + 1 + code.length) / 8 - (used + 1) / 8 + 1

/-- The block of a segment behind `used` bits. More follows it, so its first bit is not set. -/
def segmentBlock (content : ByteArray) (used : Nat) (s : Segment) : Bits :=
  let code := codedBlock s
  if isStored used s code then storedBlock used (s.bytes content) else false :: code

def segmentBlocks (content : ByteArray) : (used : Nat) → List Segment → Bits
  | _, [] => []
  | used, s :: rest =>
    let block := segmentBlock content used s
    block ++ segmentBlocks content (used + block.length) rest

/-- The blocks of some content: those of its segments, an empty stored block, so that a reader can
tell that all has arrived, and an empty last block. -/
def blocks (content : ByteArray) : Bits :=
  let first := segmentBlocks content 0 (Segment.cut (Matching.steps content))
  first ++ storedBlock first.length [] ++ true :: fixedBlock []

end Spool.Flate
