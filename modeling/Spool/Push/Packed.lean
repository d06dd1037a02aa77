import Spool.Digest.Sha256
import Spool.Flate.Stream
import Spool.Push.Program

/-!
Packed content: the compressed stream of a file and the digest of that stream. Equal content always
gives the same stream, hence the same digest.
-/

namespace Spool

structure Packed where
  data : ByteArray
  /-- The digest of `data`. -/
  hash : String
  originalSize : Nat

namespace Packed

def ofContent (content : ByteArray) : Packed :=
  let data := Flate.Stream.compress content
  ⟨data, Sha256.hex data, content.size⟩

def ofFile (d : Disk) (path : String) : Except PushError Packed :=
  match d.read path with
  | .ok content => .ok (ofContent content)
  | .error cause => .error (.io path cause)

end Packed

end Spool
