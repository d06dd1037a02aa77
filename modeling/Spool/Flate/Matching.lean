import Spool.Flate.Token

/-!
Content as tokens. Positions whose next three bytes have one key are chained, newest first. At each
position the chain is searched for the longest match, which is taken unless the next position has a
longer one. A match is measured on the bytes themselves, so what is copied is right whatever the
chains hold.
-/

namespace Spool.Flate.Matching

/-- A match this long is taken at once. -/
def niceLength : Nat := 128

/-- With a match this long at the position before, a quarter of the chain is tried. -/
def goodLength : Nat := 32

/-- A match of three bytes from so far away, or farther, is not worth its code. -/
def farDistance : Nat := 8192

def matchLength (src : ByteArray) (a b : Nat) : Nat → Nat
  | 0 => 0
  | limit + 1 =>
    if src.get! a == src.get! b then matchLength src (a + 1) (b + 1) limit + 1 else 0

def lookahead (src : ByteArray) (pos : Nat) : Nat :=
  min Token.maxLength (src.size - pos)

/-- How far back a match may begin: the window holds what is looked at too. -/
def reach (src : ByteArray) (pos : Nat) : Nat :=
  min pos (Token.maxDistance - lookahead src pos)

/-- For each key the newest position with that key, and for each position of the window the one
before it on its chain. Positions are kept modulo 65536; 0 stands for the end of a chain. -/
structure Chains where
  newest : Array Nat
  before : Array Nat

namespace Chains

def keyCount : Nat := 32768

/-- Positions are told apart within this span only. -/
def span : Nat := 65536

def empty : Chains :=
  ⟨Array.replicate keyCount 0, Array.replicate Token.maxDistance 0⟩

def key (src : ByteArray) (pos : Nat) : Nat :=
  let a := (src.get! pos).toNat
  let b := (src.get! (pos + 1)).toNat
  let c := (src.get! (pos + 2)).toNat
  ((a * 1024) ^^^ (b * 32) ^^^ c) % keyCount

def previous (c : Chains) (pos : Nat) : Nat :=
  c.before[pos % Token.maxDistance]!

def insert (c : Chains) (src : ByteArray) (pos : Nat) : Chains :=
  if pos + Token.minLength ≤ src.size then
    let k := key src pos
    let last := c.newest[k]!
    ⟨c.newest.set! k (pos % span), c.before.set! (pos % Token.maxDistance) last⟩
  else c

def insertRun (c : Chains) (src : ByteArray) (pos : Nat) : Nat → Chains
  | 0 => c
  | count + 1 => insertRun (c.insert src pos) src (pos + 1) count

end Chains

structure Found where
  length : Nat
  distance : Nat
  deriving DecidableEq, Repr

/-- Entries of a chain that are tried, three at a time. -/
def budget (held : Nat) : Nat :=
  if goodLength ≤ held then 3 * 11 else 3 * 43

/-- The two bytes at the end of a match of length `best` would be equal if it were one longer. -/
def endsAlike (src : ByteArray) (a b best : Nat) : Bool :=
  src.get! (a + best - 1) == src.get! (b + best - 1) && src.get! (a + best) == src.get! (b + best)

/-- The longest match at `pos` among the entries of the chain from `entry` on, if one is longer than
`best` bytes. An entry that ends alike is measured, and uses up its group of three. -/
def search (src : ByteArray) (chains : Chains) (pos : Nat) (left entry best : Nat)
    (found : Option Found) : Option Found :=
  if left = 0 then found
  else
    let distance := (pos + Chains.span - entry) % Chains.span
    if entry = 0 ∨ distance = 0 ∨ reach src pos < distance then found
    else if endsAlike src (pos - distance) pos best then
      let length := matchLength src (pos - distance) pos (lookahead src pos)
      if best < length then
        if length = lookahead src pos then some ⟨length, distance⟩
        else search src chains pos ((left - 1) / 3 * 3) (chains.previous entry) length
          (some ⟨length, distance⟩)
      else search src chains pos ((left - 1) / 3 * 3) (chains.previous entry) best found
    else search src chains pos (left - 1) (chains.previous entry) best found
termination_by left
decreasing_by all_goals omega

/-- The match to consider at a position, if it is longer than the one held from the position before.
A match that begins at a multiple of the window size is not used. -/
def longest (src : ByteArray) (chains : Chains) (pos held : Nat) : Option Found :=
  let least := max held 2
  if lookahead src pos ≤ least then none
  else
    match search src chains pos (budget held) (chains.previous pos) least none with
    | some found =>
      if found.length = Token.minLength ∧ farDistance ≤ found.distance then none
      else if pos % Token.maxDistance = found.distance then none
      else some found
    | none => none

/-- One step of the search: the tokens it settles, where it leads, and how many bytes before that
place are still in the window. -/
structure Step where
  tokens : List Token
  next : Nat
  window : Nat

/-- A match is held until the position after its first byte was searched too. With each step comes
the match that it leaves held. -/
def step (src : ByteArray) (pos : Nat) (held next : Option Found) : List Token × Nat × Option Found :=
  match held, next with
  | none, none => ([.literal (src.get! pos)], 1, none)
  | none, some f =>
    if niceLength ≤ f.length then ([.copy f.length f.distance], f.length, none)
    else ([], 1, some f)
  | some h, none => ([.copy h.length h.distance], h.length - 1, none)
  | some _, some f =>
    let skipped := Token.literal (src.get! (pos - 1))
    if niceLength ≤ f.length then ([skipped, .copy f.length f.distance], f.length, none)
    else ([skipped], 1, some f)

/-- Steps from `pos` on. The fuel is at least the number of positions left. -/
def stepsFrom (src : ByteArray) :
    (fuel pos : Nat) → Option Found → Chains → List Step → List Step
  | 0, _, _, _, done => done.reverse
  | fuel + 1, pos, held, chains, done =>
    if src.size ≤ pos then done.reverse
    else
      let chains := chains.insert src pos
      let next := longest src chains pos ((held.map (·.length)).getD 0)
      let (tokens, count, held) := step src pos held next
      let window := min (reach src pos + count) Token.maxDistance
      stepsFrom src fuel (pos + count) held (chains.insertRun src (pos + 1) (count - 1))
        (⟨tokens, pos + count, window⟩ :: done)

def steps (src : ByteArray) : List Step :=
  stepsFrom src src.size 0 none .empty []

end Spool.Flate.Matching
