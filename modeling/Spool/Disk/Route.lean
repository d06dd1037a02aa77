import Spool.Disk.Tree
import Spool.PushError

/-!
How a path leads to a location. Steps are taken one by one; a symbolic link on the way, and one at
the end when it is followed, is replaced by the steps of its target, at most forty times.
-/

namespace Spool

inductive Step
  | stay
  | up
  | name (name : String)
  deriving DecidableEq, Repr

structure Route where
  /-- Begins at the root. -/
  absolute : Bool
  steps : List Step
  /-- Ends with a slash, so that it can only lead to a directory. -/
  slash : Bool
  deriving DecidableEq, Repr

namespace Route

def stepOf (piece : List Char) : Option Step :=
  if piece = [] then none
  else if piece = ['.'] then some .stay
  else if piece = ['.', '.'] then some .up
  else some (.name (String.ofList piece))

def ofText (path : List Char) : Route where
  absolute := path.head? == some '/'
  steps := (path.splitOn '/').filterMap stepOf
  slash := path.getLast? == some '/'

def maxPath : Nat := 4096

def maxName : Nat := 255

/-- Links followed on one way. -/
def maxLinks : Nat := 40

/-- A text that cannot be passed to the system as a path. -/
def isUnpassable (path : String) : Bool := path.toList.contains '\x00'

def unpassable : IoError := .other "file name contained an unexpected NUL byte"

def read (path : String) : Except IoError Route :=
  if isUnpassable path then .error unpassable
  else if path.toList = [] then .error (.system Errno.noEntry)
  else if maxPath ≤ path.utf8ByteSize then .error (.system Errno.nameTooLong)
  else .ok (ofText path.toList)

end Route

namespace Disk

/-- What the last step is to find. -/
inductive Aim
  /-- Something that is there. -/
  | existing
  /-- A regular file, or a free name to create one. -/
  | creating
  deriving DecidableEq, Repr

abbrev Spot := Loc × Option Entry

/-- Takes the steps from `here`. `follow` goes on behind a link: it gets the target, the directory
of the link, whether a slash ends the path, and the steps behind the link. -/
def exploreWith (d : Disk) (aim : Aim)
    (follow : String → Loc → Bool → List Step → Except Int Spot) (here : Loc) (slash : Bool) :
    List Step → Except Int Spot
  | [] =>
    match aim with
    | .existing => .ok (here, some .dir)
    | .creating => .error Errno.isDirectory
  | .stay :: rest => exploreWith d aim follow here slash rest
  | .up :: rest => exploreWith d aim follow here.tail slash rest
  | .name n :: rest =>
    if aim = .creating ∧ rest = [] ∧ slash then .error Errno.isDirectory
    else if Route.maxName < n.utf8ByteSize then .error Errno.nameTooLong
    else
      match d.at? (n :: here) with
      | none =>
        if aim = .creating ∧ rest = [] then .ok (n :: here, none) else .error Errno.noEntry
      | some .dir => exploreWith d aim follow (n :: here) slash rest
      | some (.file bytes executable) =>
        if rest = [] ∧ !slash then .ok (n :: here, some (.file bytes executable))
        else .error Errno.notDirectory
      | some (.link target) => follow target here slash rest

def explore (d : Disk) (aim : Aim) : Nat → Loc → Bool → List Step → Except Int Spot
  | 0 => exploreWith d aim fun _ _ _ _ => .error Errno.tooManyLinks
  | links + 1 => exploreWith d aim fun target here slash rest =>
    let r := Route.ofText target.toList
    explore d aim links (if r.absolute then [] else here) (slash || rest.isEmpty && r.slash)
      (r.steps ++ rest)

def start (d : Disk) (r : Route) : Loc :=
  if r.absolute then [] else d.here

def report {α : Type} : Except Int α → Except IoError α
  | .ok a => .ok a
  | .error errno => .error (.system errno)

def locate (d : Disk) (aim : Aim) (path : String) : Except IoError Spot :=
  match Route.read path with
  | .error e => .error e
  | .ok r => report (d.explore aim Route.maxLinks (d.start r) r.slash r.steps)

/-- An enclosing directory and the last step of a route, a link there not followed. -/
structure Place where
  dir : Loc
  /-- `none` for the root and for routes that end in `.` or `..`. -/
  name : Option String
  slash : Bool
  deriving DecidableEq, Repr

/-- The place of a route's last step. All steps before it lead to directories. -/
def place (d : Disk) (path : String) : Except IoError Place :=
  match Route.read path with
  | .error e => .error e
  | .ok r =>
    match d.explore .existing Route.maxLinks (d.start r) true r.steps.dropLast with
    | .error errno => .error (.system errno)
    | .ok (dir, _) =>
      match r.steps.getLast? with
      | some (.name n) => .ok ⟨dir, some n, r.slash⟩
      | _ => .ok ⟨dir, none, r.slash⟩

end Disk

end Spool
