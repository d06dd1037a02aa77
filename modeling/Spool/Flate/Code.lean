import Spool.Flate.Bits

/-!
Codes of variable length. A code is given by the lengths of its words alone: shorter words come
first, words of one length are consecutive numbers in the order of their symbols. The tables say
how the lengths and distances of copies are split into a symbol and extra bits.
-/

namespace Spool.Flate

/-- The symbols with a word of one bit, of two bits, and so on. -/
abbrev Code := List (List Nat)

/-- Words by symbol; the word is empty for a symbol that has none. -/
abbrev Words := Array Bits

namespace Code

def maxWord : Nat := 15

def symbolsOf (lengths : List Nat) (n : Nat) : List Nat :=
  lengths.zipIdx.filterMap fun (length, symbol) => if length = n then some symbol else none

def overfull : (room : Nat) → Code → Bool
  | _, [] => false
  | room, symbols :: rest =>
    2 * room < symbols.length || overfull (2 * room - symbols.length) rest

/-- The code with the given word lengths, zero for a symbol without a word. -/
def ofLengths? (lengths : List Nat) : Option Code :=
  let code := (List.range maxWord).map fun n => symbolsOf lengths (n + 1)
  if overfull 1 code then none else some code

/-- Reads one word. `word` and `first` are the bits read so far and the first word that is at
least as long. -/
def readFrom : Code → (word first : Nat) → Bits → Option (Nat × Bits)
  | symbols :: rest, word, first, bit :: bits =>
    let word := 2 * word + bit.toNat
    if word < first + symbols.length then
      if first ≤ word then (symbols[word - first]?).map (·, bits) else none
    else readFrom rest word (2 * (first + symbols.length)) bits
  | _, _, _, _ => none

def read? (code : Code) (bits : Bits) : Option (Nat × Bits) :=
  readFrom code 0 0 bits

/-- The word of a symbol. `first` is the first word of `length` bits. -/
def wordFrom (symbol : Nat) : Code → (length first : Nat) → Bits
  | [], _, _ => []
  | symbols :: rest, length, first =>
    match symbols.idxOf? symbol with
    | some place => Bits.codeWord length (first + place)
    | none => wordFrom symbol rest (length + 1) (2 * (first + symbols.length))

def word (code : Code) (symbol : Nat) : Bits :=
  wordFrom symbol code 1 0

def words (code : Code) (count : Nat) : Words :=
  Array.ofFn fun symbol : Fin count => code.word symbol

end Code

namespace Words

def word (words : Words) (symbol : Nat) : Bits :=
  words.getD symbol []

def cover (words : Words) (symbols : List Nat) : Bool :=
  symbols.all fun symbol => !(words.word symbol).isEmpty

end Words

/-- The end of a block, as a symbol beside the 256 bytes. -/
def endOfBlock : Nat := 256

/-- Smallest value and number of extra bits of each symbol for a length, from symbol 257 on. -/
def lengthTable : List (Nat × Nat) :=
  [(3, 0), (4, 0), (5, 0), (6, 0), (7, 0), (8, 0), (9, 0), (10, 0), (11, 1), (13, 1), (15, 1),
   (17, 1), (19, 2), (23, 2), (27, 2), (31, 2), (35, 3), (43, 3), (51, 3), (59, 3), (67, 4),
   (83, 4), (99, 4), (115, 4), (131, 5), (163, 5), (195, 5), (227, 5), (258, 0)]

/-- Smallest value and number of extra bits of each symbol for a distance. -/
def distanceTable : List (Nat × Nat) :=
  [(1, 0), (2, 0), (3, 0), (4, 0), (5, 1), (7, 1), (9, 2), (13, 2), (17, 3), (25, 3), (33, 4),
   (49, 4), (65, 5), (97, 5), (129, 6), (193, 6), (257, 7), (385, 7), (513, 8), (769, 8),
   (1025, 9), (1537, 9), (2049, 10), (3073, 10), (4097, 11), (6145, 11), (8193, 12), (12289, 12),
   (16385, 13), (24577, 13)]

def literalCount : Nat := endOfBlock + 1 + lengthTable.length

def distanceCount : Nat := distanceTable.length

/-- The last row whose smallest value is not above `value`: its number, its extra bits and what is
left for them. -/
def splitFrom (value : Nat) : (row : Nat) → List (Nat × Nat) → Nat × Nat × Nat → Nat × Nat × Nat
  | _, [], last => last
  | row, (base, extra) :: rest, last =>
    if value < base then last else splitFrom value (row + 1) rest (row, extra, value - base)

def split (table : List (Nat × Nat)) (value : Nat) : Nat × Nat × Nat :=
  splitFrom value 0 table (0, 0, 0)

def fixedLengths : List Nat :=
  List.replicate 144 8 ++ List.replicate 112 9 ++ List.replicate 24 7 ++ List.replicate 8 8

def fixedDistances : List Nat :=
  List.replicate 30 5

end Spool.Flate
