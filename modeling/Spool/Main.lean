import Spool.CommandLine.Command
import Spool.Upload.Schedule

/-!
The program on a machine: its calls are carried out one after the other on the real file system. No
network is reached, so every request to a key-value store goes unanswered.
-/

namespace Spool

def IoError.ofSystem : IO.Error → IoError
  | .alreadyExists _ errno _ | .otherError errno _ | .resourceBusy errno _
  | .resourceVanished errno _ | .unsupportedOperation errno _ | .hardwareFault errno _
  | .unsatisfiedConstraints errno _ | .illegalOperation errno _ | .protocolError errno _
  | .timeExpired errno _ | .interrupted _ errno _ | .noFileOrDirectory _ errno _
  | .invalidArgument _ errno _ | .permissionDenied _ errno _ | .resourceExhausted _ errno _
  | .inappropriateType _ errno _ | .noSuchThing _ errno _ => .system errno.toNat
  | .unexpectedEof => .other "unexpected end of file"
  | .userError reason => .other reason

def attempt {α : Type} (call : IO α) : IO (Disk.Reply α) := do
  try return .ok (← call) catch e => return .error (.ofSystem e)

/-- Copies a file. The target is created or truncated before anything is read, so that nothing is left
of a file that is copied onto itself. Permissions cannot be asked for and are not carried over. -/
def copyOnDisk (source dest : String) : IO (Disk.Reply Unit) := do
  match ← attempt do (← IO.FS.Handle.mk source .read).read 1 with
  | .error cause =>
    return .error (if cause = .system Errno.isDirectory then Disk.notRegular else cause)
  | .ok _ =>
    attempt do
      let input ← IO.FS.Handle.mk source .read
      let output ← IO.FS.Handle.mk dest .write
      output.write (← input.readBinToEnd)

def Action.carryOut : Action → IO (Disk.Reply Unit)
  | .makeDirs path => if path.isEmpty then return .ok () else attempt (IO.FS.createDirAll path)
  | .copy source dest => copyOnDisk source dest
  | .write path bytes => attempt (IO.FS.writeBinFile path bytes)
  | .rename old new => attempt (IO.FS.rename old new)
  | .unlink path => attempt (IO.FS.removeFile path)

def sizeOnDisk (path : String) : IO (Option Nat) := do
  match ← attempt (IO.FS.readBinFile path) with
  | .ok bytes => return some bytes.size
  | .error (.system errno) =>
    return if errno = Errno.isDirectory then some Disk.directorySize else none
  | .error _ => return none

def Program.carryOut {ρ : Type} : Program ρ → IO ρ
  | .done r => return r
  | .read path next => do (next (← attempt (IO.FS.readBinFile path))).carryOut
  | .size path next => do (next (← sizeOnDisk path)).carryOut
  | .act action next => do (next (← action.carryOut)).carryOut
  | .put key _ next => (next (.error (.unreachable key "no network"))).carryOut

partial def readAll (input : IO.FS.Stream) (read : ByteArray) : IO ByteArray := do
  let chunk ← input.read 65536
  if chunk.isEmpty then return read else readAll input (read ++ chunk)

/-- How many processors the machine has; one if it does not tell. -/
def countProcessors : IO Nat := do
  match ← attempt (IO.FS.lines "/proc/cpuinfo") with
  | .ok lines => return max 1 (lines.toList.filter (·.startsWith "processor")).length
  | .error _ => return 1

def printLines (output : IO.FS.Stream) (lines : List String) : IO Unit := do
  output.putStr (Report.text lines)
  output.flush

def Printed.print (p : Printed) : IO UInt32 := do
  printLines (← IO.getStdout) p.output
  printLines (← IO.getStderr) p.errors
  return p.exitCode.toUInt32

def Plan.carryOut (plan : Plan) : IO UInt32 := do
  printLines (← IO.getStdout) plan.header
  let input ← if plan.readsInput then readAll (← IO.getStdin) .empty else pure .empty
  let begun ← IO.monoNanosNow
  let upload ← (Upload.program plan (plan.listed input.toList)).carryOut
  (upload.printed ⟨0, (← IO.monoNanosNow) - begun⟩).print

end Spool

def main (arguments : List String) : IO UInt32 := do
  match Spool.Command.ofArguments (← Spool.countProcessors) arguments with
  | .stop stop => stop.printed.print
  | .refuse error => error.printed.print
  | .abandon plan abort => do
    Spool.printLines (← IO.getStdout) plan.header
    abort.printed.print
  | .upload plan => plan.carryOut
