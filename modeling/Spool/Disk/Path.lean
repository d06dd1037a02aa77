import Spool.Text

/-!
Paths as text: joining, the enclosing directory, the last name. Empty pieces between slashes and `.`
name nothing, except a `.` that begins a relative path.
-/

namespace Spool.Path

structure Pieces where
  absolute : Bool
  pieces : List (List Char)
  deriving DecidableEq, Repr

namespace Pieces

def ofText : List Char → Pieces
  | '/' :: body => ⟨true, (body.splitOn '/').reverse⟩
  | body => ⟨false, (body.splitOn '/').reverse⟩

def text (p : Pieces) : List Char :=
  let body := ['/'].intercalate p.pieces.reverse
  if p.absolute then '/' :: body else body

/-- Drops the pieces at the end that name nothing. -/
def dropIdle (absolute : Bool) : List (List Char) → List (List Char)
  | [] => []
  | piece :: front =>
    if piece = [] then dropIdle absolute front
    else if piece = ['.'] then
      if !absolute && front.isEmpty then [piece] else dropIdle absolute front
    else piece :: front

end Pieces

/-- The path without its last name; `none` for the root and the empty path. -/
def parent? (path : String) : Option String :=
  let p := Pieces.ofText path.toList
  match Pieces.dropIdle p.absolute p.pieces with
  | [] => none
  | _ :: front =>
    some (String.ofList (Pieces.text ⟨p.absolute, Pieces.dropIdle p.absolute front⟩))

/-- The last name of a path; `none` when the path ends in `.` or `..` or names nothing. -/
def fileName? (path : String) : Option String :=
  let p := Pieces.ofText path.toList
  match Pieces.dropIdle p.absolute p.pieces with
  | [] => none
  | piece :: _ =>
    if piece = ['.'] ∨ piece = ['.', '.'] then none else some (String.ofList piece)

/-- `rel` below `base`, or `rel` itself when it begins at the root. -/
def join (base rel : List Char) : List Char :=
  match rel with
  | '/' :: _ => rel
  | _ =>
    if base = [] ∨ base.getLast? = some '/' then base ++ rel else base ++ '/' :: rel

end Spool.Path
