import Spool.Text.Blank

/-!
A list of files, one on each line. Blanks around a name do not count, and blank lines are skipped. A
line that is no text ends the list.
-/

namespace Spool

inductive Listed
  | file (name : String)
  | unreadable
  deriving DecidableEq, Repr

namespace Listed

/-- What a line lists; nothing when it is blank. -/
def ofLine? (line : List UInt8) : Option Listed :=
  match String.fromUTF8? ⟨line.toArray⟩ with
  | none => some unreadable
  | some text =>
    match Text.trim text.toList with
    | [] => none
    | name => some (file (String.ofList name))

def ofBytes (bytes : List UInt8) : List Listed :=
  (bytes.splitOn '\n'.toUInt8).filterMap ofLine?

def fault : String := "stream did not contain valid UTF-8"

end Listed

end Spool
