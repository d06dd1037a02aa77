import Spool.ObjectKey
import Spool.Push.Packed

/-!
A directory as a store. Transfers keep the remote path as it is given; a packed object is written
beside its place under a partial name and renamed into it.
-/

namespace Spool.Directory

/-- Where a remote path lies below the base. Its leading slashes do not make it absolute. -/
def destination (base remote : String) : String :=
  String.ofList (Path.join base.toList (Text.dropSlashes remote.toList))

def withParent (path : String) (next : Push) : Push :=
  match Path.parent? path with
  | none => next
  | some parent =>
    .act (.makeDirs parent) fun
      | .ok () => next
      | .error cause => Push.failIo parent cause

def crossDevice : Int := 18

/-- Renames; where that would cross file systems, copies and removes the source. -/
def moveFile (source dest : String) : Push :=
  .act (.rename source dest) fun
    | .ok () => .done (.ok "")
    | .error cause =>
      if cause = .system crossDevice then
        .act (.copy source dest) fun
          | .ok () => Push.finish true source ""
          | .error cause => Push.failIo dest cause
      else Push.failIo source cause

def copyFile (source dest : String) : Push :=
  .act (.copy source dest) fun
    | .ok () => .done (.ok "")
    | .error cause => Push.failIo source cause

def transfer (base : String) (job : Transfer) : Push :=
  let dest := destination base job.remote
  withParent dest (if job.move then moveFile job.source dest else copyFile job.source dest)

def partialName (dest : String) : String := dest ++ ".partial"

/-- Removes what was written under the partial name, whether or not that works, and fails. -/
def discard (beside path : String) (cause : IoError) : Push :=
  .act (.unlink beside) fun _ => Push.failIo path cause

def transform (base : String) (job : Transform) : Push :=
  .read job.source fun
    | .error cause => Push.failIo job.source cause
    | .ok content =>
      let object := Packed.ofContent content
      let dest := destination base (ObjectKey.ofDigest job.dir object.hash job.suffix)
      let beside := partialName dest
      withParent dest <|
        .act (.write beside object.data) fun
          | .error cause => discard beside beside cause
          | .ok () =>
            .act (.rename beside dest) fun
              | .error cause => discard beside dest cause
              | .ok () => Push.finish job.move job.source object.hash

end Spool.Directory
