import Spool.Flate.Matching

/-!
Where a block ends and the next one begins. The tokens of a block are collected in a buffer; the
block ends when the buffer is nearly full, or when much was collected and little gained by it.
-/

namespace Spool.Flate

structure Segment where
  tokens : List Token
  /-- The bytes that the tokens stand for begin here. -/
  start : Nat
  /-- So many bytes they are. -/
  size : Nat
  /-- All these bytes are still in the window, so that they can be stored as they are. -/
  isRecent : Bool

namespace Segment

def bufferSize : Nat := 65536

/-- Content of this size is worth a block even if little was gained. -/
def enough : Nat := 31744

structure Draft where
  /-- The newest comes first. -/
  tokens : List Token := []
  start : Nat := 0
  size : Nat := 0
  count : Nat := 0
  copies : Nat := 0

namespace Draft

def add (d : Draft) (t : Token) : Draft :=
  { d with
    tokens := t :: d.tokens
    size := d.size + t.size
    count := d.count + 1
    copies := match t with
      | .literal _ => d.copies
      | .copy .. => d.copies + 1 }

/-- Bytes of the buffer in use: one for a literal, three for a copy, and one for the marks of each
group of eight tokens, that of the group at hand included. -/
def used (d : Draft) : Nat :=
  1 + d.count + 2 * d.copies + d.count / 8

/-- The buffer has no room for more tokens, or is not much smaller than what it stands for. -/
def isComplete (d : Draft) : Bool :=
  bufferSize - 8 < d.used || enough < d.size && d.size ≤ d.used * 115 / 128

/-- The segment, when the search has come to `next` and so many bytes before it are in the
window. -/
def segment (d : Draft) (next window : Nat) : Segment :=
  ⟨d.tokens.reverse, d.start, d.size, next - d.start ≤ window⟩

end Draft

/-- Collects the tokens of each step and cuts after steps that complete a segment. -/
def cutFrom : Draft → (next window : Nat) → List Matching.Step → List Segment
  | d, next, window, [] => if d.tokens.isEmpty then [] else [d.segment next window]
  | d, _, _, s :: rest =>
    let d := s.tokens.foldl Draft.add d
    if d.isComplete then
      d.segment s.next s.window :: cutFrom { start := d.start + d.size } s.next s.window rest
    else cutFrom d s.next s.window rest

def cut (steps : List Matching.Step) : List Segment :=
  cutFrom {} 0 0 steps

def bytes (s : Segment) (content : ByteArray) : List UInt8 :=
  (content.extract s.start (s.start + s.size)).toList

theorem Draft.tokens_foldl_add (d : Draft) (ts : List Token) :
    (ts.foldl Draft.add d).tokens = ts.reverse ++ d.tokens := by
  induction ts generalizing d with
  | nil => rfl
  | cons t ts ih =>
    simp only [List.foldl_cons, ih, Draft.add, List.reverse_cons, List.append_assoc,
      List.singleton_append]

end Segment

end Spool.Flate
