import Spool.Push.Program

/-!
A key-value store in memory. Keys are used as they are. Some keys can be made to fail, so that
outages and refusals can be tried out.
-/

namespace Spool

abbrev Memory := List (String × ByteArray)

namespace Memory

def insert (m : Memory) (key : String) (value : ByteArray) : Memory :=
  (key, value) :: m.filter (·.1 != key)

def get? (m : Memory) (key : String) : Option ByteArray :=
  m.lookup key

/-- A store in which the keys that `fault` names fail, and all others succeed. -/
def keyStore (fault : String → Option PushError) : KeyStore Memory where
  put m key value :=
    match fault key with
    | some e => (m, .error e)
    | none => (m.insert key value, .ok ())
  has m key :=
    match fault key with
    | some e => .error e
    | none => .ok (m.get? key).isSome

/-- Keys below `denied/` are refused with status 403, keys below `down/` cannot be reached. -/
def playedFault (key : String) : Option PushError :=
  if "denied/".toList.isPrefixOf key.toList then some (.refused key 403)
  else if "down/".toList.isPrefixOf key.toList then some (.unreachable key "unreachable")
  else none

end Memory

end Spool
