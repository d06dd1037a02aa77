import Spool.Text

/-!
Where an object is kept: the first two characters of its digest name a fan-out directory, the rest
and a suffix name the object. Keys of a store reached over a network are put behind its base URL.
-/

namespace Spool.ObjectKey

/-- The text cut behind its first two bytes, or at its end when it has fewer; `none` when that is
inside a character. -/
def cutTwoBytes : List Char → Option (List Char × List Char)
  | [] => some ([], [])
  | [c] => if c.utf8Size ≤ 2 then some ([c], []) else none
  | c :: d :: cs =>
    if c.utf8Size = 2 then some ([c], d :: cs)
    else if c.utf8Size = 1 ∧ d.utf8Size = 1 then some ([c, d], cs)
    else none

/-- `<dir>/<fan>/<rest><suffix>`, without the first part when `dir` is slashes only. -/
def render (dir fan rest suffix : List Char) : List Char :=
  match Text.dropEndSlashes dir with
  | [] => fan ++ '/' :: rest ++ suffix
  | dir => dir ++ '/' :: fan ++ '/' :: rest ++ suffix

/-- The key of the object with the given digest, if the digest can be cut behind two bytes. -/
def ofDigest? (dir hash suffix : String) : Option String :=
  (cutTwoBytes hash.toList).map fun (fan, rest) =>
    String.ofList (render dir.toList fan rest suffix.toList)

/-- The key of the object with the given digest, whose characters are taken to be single bytes. -/
def ofDigest (dir hash suffix : String) : String :=
  String.ofList (render dir.toList (hash.toList.take 2) (hash.toList.drop 2) suffix.toList)

/-- The URL of a key: one slash between the base without its last slashes and the key without its
first. -/
def url (base key : String) : String :=
  String.ofList (Text.dropEndSlashes base.toList ++ '/' :: Text.dropSlashes key.toList)

theorem cutTwoBytes_ascii {cs : List Char} (ascii : ∀ c ∈ cs, c.utf8Size = 1) :
    cutTwoBytes cs = some (cs.take 2, cs.drop 2) := by
  match cs with
  | [] => rfl
  | [c] =>
    have one := ascii c List.mem_cons_self
    simp only [cutTwoBytes, one, List.take, List.drop]
    rfl
  | c :: d :: cs =>
    have first := ascii c List.mem_cons_self
    have second := ascii d (List.mem_cons_of_mem c List.mem_cons_self)
    simp [cutTwoBytes, first, second]

theorem ofDigest?_eq_ofDigest {hash : String} (ascii : ∀ c ∈ hash.toList, c.utf8Size = 1)
    (dir suffix : String) : ofDigest? dir hash suffix = some (ofDigest dir hash suffix) := by
  simp only [ofDigest?, ofDigest, cutTwoBytes_ascii ascii, Option.map_some]

end Spool.ObjectKey
