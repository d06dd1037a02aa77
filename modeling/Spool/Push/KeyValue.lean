import Spool.ObjectKey
import Spool.Push.Packed

/-!
A key-value store. Every push puts one value; a source is removed only after that.
-/

namespace Spool.KeyValue

/-- Puts a value and ends with the given result, the source removed where the job asks for it. -/
def store (key : String) (value : ByteArray) (move : Bool) (source result : String) : Push :=
  .put key value fun
    | .error e => .done (.error e)
    | .ok () => Push.finish move source result

def transfer (job : Transfer) : Push :=
  .read job.source fun
    | .error cause => Push.failIo job.source cause
    | .ok content => store job.remote content job.move job.source ""

def transform (job : Transform) : Push :=
  .read job.source fun
    | .error cause => Push.failIo job.source cause
    | .ok content =>
      let object := Packed.ofContent content
      store (ObjectKey.ofDigest job.dir object.hash job.suffix) object.data job.move job.source
        object.hash

end Spool.KeyValue
