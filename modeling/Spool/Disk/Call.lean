import Spool.Disk.Path
import Spool.Disk.Route

/-!
File-system calls. Each takes a disk to a disk and a reply; a call that fails leaves the disk as it
was, except that making a chain of directories keeps those made before the failure.
-/

namespace Spool.Disk

abbrev Reply (α : Type) := Except IoError α

def checkName (name : String) : Reply Unit :=
  if Route.maxName < name.utf8ByteSize then .error (.system Errno.nameTooLong) else .ok ()

def status? (d : Disk) (path : String) : Option Entry :=
  match d.locate .existing path with
  | .ok (_, e) => e
  | .error _ => none

/-- A path leads to something; false on any error. -/
def exists? (d : Disk) (path : String) : Bool :=
  (d.status? path).isSome

def isDir (d : Disk) (path : String) : Bool :=
  match d.status? path with
  | some .dir => true
  | _ => false

/-- What a small directory takes up. -/
def directorySize : Nat := 4096

def size? (d : Disk) (path : String) : Option Nat :=
  match d.status? path with
  | some (.file bytes _) => some bytes.size
  | some .dir => some directorySize
  | _ => none

/-- The content of a file. A directory can be opened but not read. -/
def read (d : Disk) (path : String) : Reply ByteArray :=
  match d.locate .existing path with
  | .error e => .error e
  | .ok (_, some (.file bytes _)) => .ok bytes
  | .ok _ => .error (.system Errno.isDirectory)

/-- Where a file that is opened for writing lies, and whether it is executable there. -/
def target (d : Disk) (path : String) : Reply (Loc × Option Bool) :=
  match d.locate .creating path with
  | .error e => .error e
  | .ok (loc, some (.file _ executable)) => .ok (loc, some executable)
  | .ok (loc, _) => .ok (loc, none)

/-- Creates or truncates a file and writes its content. A file that was there stays executable. -/
def write (d : Disk) (path : String) (bytes : ByteArray) : Disk × Reply Unit :=
  match d.target path with
  | .error e => (d, .error e)
  | .ok (loc, executable) => (d.put loc (.file bytes (executable.getD false)), .ok ())

/-- Why a directory is not copied. -/
def notRegular : IoError :=
  .other "the source path is neither a regular file nor a symlink to a regular file"

/-- Opens the source, creates or truncates the target, and then copies what the source holds by
now, with its permission to execute. -/
def copy (d : Disk) (source dest : String) : Disk × Reply Unit :=
  match d.locate .existing source with
  | .error e => (d, .error e)
  | .ok (origin, some (.file _ executable)) =>
    match d.target dest with
    | .error e => (d, .error e)
    | .ok (goal, _) =>
      let opened := d.put goal (.file .empty executable)
      match opened.at? origin with
      | some (.file bytes _) => (opened.put goal (.file bytes executable), .ok ())
      | _ => (opened, .ok ())
  | .ok _ => (d, .error notRegular)

/-- Creates one directory. Whatever has its name already, a dangling link too, is in the way. -/
def makeDir (d : Disk) (path : String) : Disk × Reply Unit :=
  match d.place path with
  | .error e => (d, .error e)
  | .ok ⟨_, none, _⟩ => (d, .error (.system Errno.entryExists))
  | .ok ⟨dir, some name, _⟩ =>
    match checkName name with
    | .error e => (d, .error e)
    | .ok () =>
      match d.at? (name :: dir) with
      | some _ => (d, .error (.system Errno.entryExists))
      | none => (d.put (name :: dir) .dir, .ok ())

/-- A directory that is there already is as good as a new one. -/
def orPresent (d : Disk) (path : String) (made : Disk × Reply Unit) : Disk × Reply Unit :=
  match made.2 with
  | .error (.system errno) =>
    if errno = Errno.entryExists ∧ d.isDir path then (d, .ok ()) else made
  | _ => made

/-- Creates a directory, and those around it that are missing. The fuel is the path's length: an
enclosing path is shorter. -/
def makeDirsFrom (d : Disk) : (fuel : Nat) → String → Disk × Reply Unit
  | 0, _ => (d, .ok ())
  | fuel + 1, path =>
    match Path.parent? path with
    | none => (d, .ok ())
    | some parent =>
      match d.orPresent path (d.makeDir path) with
      | (_, .error (.system errno)) =>
        if errno = Errno.noEntry then
          match makeDirsFrom d fuel parent with
          | (d, .error e) => (d, .error e)
          | (d, .ok ()) => d.orPresent path (d.makeDir path)
        else (d, .error (.system errno))
      | r => r

def makeDirs (d : Disk) (path : String) : Disk × Reply Unit :=
  d.makeDirsFrom (path.toList.length + 1) path

def unlink (d : Disk) (path : String) : Disk × Reply Unit :=
  match d.place path with
  | .error e => (d, .error e)
  | .ok ⟨_, none, _⟩ => (d, .error (.system Errno.isDirectory))
  | .ok ⟨dir, some name, slash⟩ =>
    match checkName name with
    | .error e => (d, .error e)
    | .ok () =>
      match d.at? (name :: dir) with
      | none => (d, .error (.system Errno.noEntry))
      | some .dir => (d, .error (.system Errno.isDirectory))
      | some _ =>
        if slash then (d, .error (.system Errno.notDirectory))
        else (d.remove (name :: dir), .ok ())

/-- Why an entry cannot take the place of what is at the new location. -/
def renameFault (d : Disk) (old new : Loc) (slash : Bool) (entry : Entry) (there : Option Entry) :
    Option Int :=
  let isDir := entry.isDir
  if !isDir && slash then some Errno.notDirectory
  else if (inside? old new.tail).isSome then some Errno.invalid
  else if (inside? new old.tail).isSome then some Errno.notEmpty
  else if old = new then none
  else
    match there with
    | none => none
    | some .dir =>
      if !isDir then some Errno.isDirectory
      else if d.isEmptyAt new then none
      else some Errno.notEmpty
    | some _ => if isDir then some Errno.notDirectory else none

/-- The locations that a rename goes between, if nothing is in its way. Both paths are passed to the
system before the way of either is gone. -/
def passage (d : Disk) (old new : String) : Reply (Loc × Loc) :=
  if Route.isUnpassable old || Route.isUnpassable new then .error Route.unpassable
  else
    match d.place old, d.place new with
    | .error e, _ => .error e
    | _, .error e => .error e
    | .ok origin, .ok goal =>
      match origin.name, goal.name with
      | some oldName, some newName =>
        match checkName oldName, checkName newName with
        | .error e, _ => .error e
        | .ok (), named =>
          match d.at? (oldName :: origin.dir), named with
          | none, _ => .error (.system Errno.noEntry)
          | _, .error e => .error e
          | some entry, .ok () =>
            let oldLoc := oldName :: origin.dir
            let newLoc := newName :: goal.dir
            match d.renameFault oldLoc newLoc (origin.slash || goal.slash) entry (d.at? newLoc) with
            | some errno => .error (.system errno)
            | none => .ok (oldLoc, newLoc)
      | _, _ => .error (.system Errno.busy)

/-- Renames a file, a link or a directory with all it holds; what is at the new path is replaced. -/
def rename (d : Disk) (old new : String) : Disk × Reply Unit :=
  match d.passage old new with
  | .error e => (d, .error e)
  | .ok (origin, goal) => if origin = goal then (d, .ok ()) else (d.relocate origin goal, .ok ())

def makeLink (d : Disk) (target path : String) : Disk × Reply Unit :=
  match d.place path with
  | .error e => (d, .error e)
  | .ok ⟨_, none, _⟩ => (d, .error (.system Errno.entryExists))
  | .ok ⟨dir, some name, _⟩ =>
    match d.at? (name :: dir) with
    | some _ => (d, .error (.system Errno.entryExists))
    | none => (d.put (name :: dir) (.link target), .ok ())

def install (d : Disk) (path : String) (bytes : ByteArray) (executable : Bool) :
    Disk × Reply Unit :=
  match d.target path with
  | .error e => (d, .error e)
  | .ok (loc, _) => (d.put loc (.file bytes executable), .ok ())

end Spool.Disk
