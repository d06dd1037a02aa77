import Spool.Table

/-!
A tree of directories, regular files and symbolic links. A location is a list of names, the
innermost first, so that the enclosing directory of a location is its tail; the root has no names
and is always a directory. Each file has one name: a file with several (hard links) is told on a
`Volume`.
-/

namespace Spool

abbrev Loc := List String

inductive Entry
  | dir
  | file (bytes : ByteArray) (executable : Bool)
  | link (target : String)

def Entry.isDir : Entry → Bool
  | dir => true
  | _ => false

structure Disk where
  /-- What is at each location but the root. -/
  entries : List (Loc × Entry) := []
  /-- Where relative paths begin. -/
  here : Loc := []

namespace Disk

def at? (d : Disk) (loc : Loc) : Option Entry :=
  match loc with
  | [] => some .dir
  | _ :: _ => d.entries.lookup loc

def put (d : Disk) (loc : Loc) (e : Entry) : Disk :=
  { d with entries := (loc, e) :: d.entries.filter (·.1 != loc) }

def remove (d : Disk) (loc : Loc) : Disk :=
  { d with entries := d.entries.filter (·.1 != loc) }

/-- The names inside `top` that lead to a location, if it is `top` or lies below it. -/
def inside? (top : Loc) : Loc → Option Loc
  | [] => if top = [] then some [] else none
  | name :: outer =>
    if name :: outer = top then some [] else (inside? top outer).map (name :: ·)

def isEmptyAt (d : Disk) (loc : Loc) : Bool :=
  d.entries.all fun (l, _) => l.tail != loc || l.isEmpty

/-- Where a location is after everything at and below `old` went to `new`. -/
def moved (old new : Loc) (loc : Loc) : Loc :=
  match inside? old loc with
  | some names => names ++ new
  | none => loc

/-- What is told of locations, after everything at and below `old` went to `new`. -/
def relocated {α : Type} (old new : Loc) (told : List (Loc × α)) : List (Loc × α) :=
  (told.filter (·.1 != new)).map fun (l, a) => (moved old new l, a)

/-- Moves an entry, with everything below it, over whatever is at the new location. -/
def relocate (d : Disk) (old new : Loc) : Disk where
  entries := relocated old new d.entries
  here := moved old new d.here

theorem lookup_filter_ne {entries : List (Loc × Entry)} {loc other : Loc} (apart : other ≠ loc) :
    (entries.filter (·.1 != loc)).lookup other = entries.lookup other :=
  (Table.lookup_filter (· != loc) entries other).trans (if_pos (bne_iff_ne.mpr apart))

theorem lookup_filter_self {entries : List (Loc × Entry)} {loc : Loc} :
    (entries.filter (·.1 != loc)).lookup loc = none :=
  (Table.lookup_filter (· != loc) entries loc).trans (if_neg (by simp))

theorem at?_put_of_ne (d : Disk) {loc other : Loc} (e : Entry) (apart : other ≠ loc) :
    (d.put loc e).at? other = d.at? other := by
  cases other with
  | nil => rfl
  | cons n l =>
    have skip : (n :: l == loc) = false := beq_eq_false_iff_ne.mpr apart
    simp only [at?, put, List.lookup_cons, skip, lookup_filter_ne apart]

theorem at?_put_self (d : Disk) {name : String} {dir : Loc} (e : Entry) :
    (d.put (name :: dir) e).at? (name :: dir) = some e := by
  simp only [at?, put, List.lookup_cons, beq_self_eq_true]

theorem at?_remove_of_ne (d : Disk) {loc other : Loc} (apart : other ≠ loc) :
    (d.remove loc).at? other = d.at? other := by
  cases other with
  | nil => rfl
  | cons n l => simp only [at?, remove, lookup_filter_ne apart]

theorem at?_remove_self (d : Disk) (name : String) (dir : Loc) :
    (d.remove (name :: dir)).at? (name :: dir) = none := by
  simp only [at?, remove, lookup_filter_self]

end Disk

end Spool
