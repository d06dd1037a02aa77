import Spool.ObjectKey
import Spool.Push.Program

/-!
A key-value store reached over a network: values are put and looked for at `<base>/<key>`. The
answer to a request is a status, or a reason why none came.
-/

namespace Spool

inductive Method
  | put
  | head
  deriving DecidableEq, Repr

structure Message where
  method : Method
  url : String
  body : ByteArray := .empty

abbrev Network (σ : Type) := σ → Message → σ × Except String Nat

namespace Remote

def isSuccess (status : Nat) : Bool := 200 ≤ status && status < 300

def notFound : Nat := 404

def keyStore {σ : Type} (network : Network σ) (base : String) : KeyStore σ where
  put state key value :=
    match network state ⟨.put, ObjectKey.url base key, value⟩ with
    | (state, .error reason) => (state, .error (.unreachable key reason))
    | (state, .ok status) =>
      (state, if isSuccess status then .ok () else .error (.refused key status))
  has state key :=
    match (network state ⟨.head, ObjectKey.url base key, .empty⟩).2 with
    | .error reason => .error (.unreachable key reason)
    | .ok status =>
      if isSuccess status then .ok true
      else if status = notFound then .ok false
      else .error (.refused key status)

def silent {σ : Type} (reason : String) : Network σ :=
  fun state _ => (state, .error reason)

end Remote

end Spool
