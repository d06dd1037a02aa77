import Spool.Definition
import Spool.Push.Directory
import Spool.Push.KeyValue
import Spool.Push.Remote

/-!
The store that a definition selects, and the check whether something is there already.
-/

namespace Spool

inductive Store
  | directory (base : String)
  | keyValue
  deriving DecidableEq, Repr

namespace Store

def name : Store → String
  | directory _ => "local"
  | keyValue => "kv"

def ofDefinition (d : Definition) : Store :=
  match d.driver with
  | .directory => directory d.description
  | .keyValue => keyValue

/-- Prepares the store of a definition for one worker: a base directory is made. -/
def prepare (d : Definition) : Program (Except PushError Store) :=
  match ofDefinition d with
  | directory base =>
    .act (.makeDirs base) fun
      | .ok () => .done (.ok (directory base))
      | .error cause => .done (.error (.io base cause))
  | keyValue => .done (.ok keyValue)

def transfer : Store → Transfer → Push
  | directory base => Directory.transfer base
  | keyValue => KeyValue.transfer

def transform : Store → Transform → Push
  | directory base => Directory.transform base
  | keyValue => KeyValue.transform

/-- The push that a job asks for. A termination asks for none. -/
def push (store : Store) : Job → Push
  | .transfer job => store.transfer job
  | .transform job => store.transform job
  | .termination => .done (.ok "")

end Store

inductive Presence
  | directory (base : String)
  | keyValue (base : String)
  deriving DecidableEq, Repr

namespace Presence

/-- Reads the first field of a definition. It must name a known driver and describe something. -/
def read (text : String) : Except DefinitionError Presence :=
  let first := (text.toList.splitOn ',').headD []
  match Text.cutAt ':' first with
  | none | some (_, []) => .error (.notAStore text)
  | some (name, description) =>
    match Driver.ofName? (String.ofList name) with
    | none => .error (.notAStore text)
    | some .directory => .ok (directory (String.ofList description))
    | some .keyValue => .ok (keyValue (String.ofList description))

def inDirectory (base : String) (d : Disk) (path : String) : Bool :=
  d.exists? (String.ofList (base.toList ++ '/' :: path.toList))

/-- A key is in a store; a failed look-up counts as absent. -/
def inStore {σ : Type} (store : KeyStore σ) (state : σ) (key : String) : Bool :=
  match store.has state key with
  | .ok found => found
  | .error _ => false

end Presence

end Spool
