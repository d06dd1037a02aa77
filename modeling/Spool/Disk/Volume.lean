import Spool.Disk.Call

/-!
Disks on which a file can have several names (hard links). What is written under one of its names is
read under the others, and it is gone when the last one is.
-/

namespace Spool

def Disk.hasFile (d : Disk) (loc : Loc) : Bool :=
  match d.at? loc with
  | some (.file ..) => true
  | _ => false

structure Volume where
  disk : Disk
  /-- Names with the same number are names of one file. A file without a number has one name. -/
  numbers : List (Loc × Nat)
  numbered : ∀ pair ∈ numbers, disk.hasFile pair.1

namespace Volume

def ofDisk (disk : Disk) : Volume := ⟨disk, [], nofun⟩

/-- A name that leads to no file any more loses its number. -/
def numbering (disk : Disk) (numbers : List (Loc × Nat)) : Volume where
  disk := disk
  numbers := numbers.filter (disk.hasFile ·.1)
  numbered := fun _ member => (List.mem_filter.mp member).2

/-- Equal names, or two names of one file. -/
def areOne (v : Volume) (loc other : Loc) : Bool :=
  loc == other || match v.numbers.lookup loc with
    | some number => v.numbers.lookup other == some number
    | none => false

/-- Puts a file at a location, and with it at the other names of the file that is there. -/
def fill (v : Volume) (loc : Loc) (file : Entry) : Volume :=
  let entries := (v.disk.put loc file).entries.map fun (l, e) =>
    (l, if v.areOne loc l then file else e)
  numbering { v.disk with entries } v.numbers

def makeDirs (v : Volume) (path : String) : Volume × Disk.Reply Unit :=
  let (disk, reply) := v.disk.makeDirs path
  (numbering disk v.numbers, reply)

def write (v : Volume) (path : String) (bytes : ByteArray) : Volume × Disk.Reply Unit :=
  match v.disk.target path with
  | .error e => (v, .error e)
  | .ok (loc, executable) => (v.fill loc (.file bytes (executable.getD false)), .ok ())

/-- A source that is another name of the target has become empty when it is read. -/
def copy (v : Volume) (source dest : String) : Volume × Disk.Reply Unit :=
  match v.disk.locate .existing source with
  | .error e => (v, .error e)
  | .ok (origin, some (.file _ executable)) =>
    match v.disk.target dest with
    | .error e => (v, .error e)
    | .ok (goal, _) =>
      let opened := v.fill goal (.file .empty executable)
      match opened.disk.at? origin with
      | some (.file bytes _) => (opened.fill goal (.file bytes executable), .ok ())
      | _ => (opened, .ok ())
  | .ok _ => (v, .error Disk.notRegular)

/-- Two names of one file both stay. -/
def rename (v : Volume) (old new : String) : Volume × Disk.Reply Unit :=
  match v.disk.passage old new with
  | .error e => (v, .error e)
  | .ok (origin, goal) =>
    if v.areOne origin goal then (v, .ok ())
    else (numbering (v.disk.relocate origin goal) (Disk.relocated origin goal v.numbers), .ok ())

/-- Takes one name; the file stays under the others. -/
def unlink (v : Volume) (path : String) : Volume × Disk.Reply Unit :=
  let (disk, reply) := v.disk.unlink path
  (numbering disk v.numbers, reply)

end Volume

end Spool
