/-!
Tokens: a byte as it is, or a copy of bytes already written. Expanding tokens appends what they
stand for; a copy may reach into what it is itself writing.
-/

namespace Spool.Flate

inductive Token
  | literal (byte : UInt8)
  | copy (length distance : Nat)
  deriving DecidableEq, Repr

namespace Token

def minLength : Nat := 3
def maxLength : Nat := 258
def maxDistance : Nat := 32768

def size : Token → Nat
  | literal _ => 1
  | copy length _ => length

def copyBack (out : ByteArray) (distance : Nat) : Nat → ByteArray
  | 0 => out
  | count + 1 => copyBack (out.push (out.get! (out.size - distance))) distance count

/-- Appends what a token stands for; `none` when a copy would begin before the output. -/
def expand? (out : ByteArray) : Token → Option ByteArray
  | literal byte => some (out.push byte)
  | copy length distance =>
    if 0 < distance ∧ distance ≤ out.size then some (copyBack out distance length) else none

def expandAll? : ByteArray → List Token → Option ByteArray
  | out, [] => some out
  | out, t :: ts => (t.expand? out).bind fun out => expandAll? out ts

def Fits : Token → Prop
  | literal _ => True
  | copy length distance =>
    minLength ≤ length ∧ length ≤ maxLength ∧ 1 ≤ distance ∧ distance ≤ maxDistance

end Token

end Spool.Flate
