/-!
The lengths of a code's words, chosen so that symbols which occur often get short words. Branches
of a tree are joined, the two lightest first; a symbol's word is as long as its leaf is deep. Where
words would be too long, others are made longer instead.
-/

namespace Spool.Flate.WordLength

structure Branch where
  weight : Nat
  depths : List Nat

namespace Branch

def leaf (weight : Nat) : Branch :=
  ⟨weight, [0]⟩

def join (a b : Branch) : Branch :=
  ⟨a.weight + b.weight, (a.depths ++ b.depths).map (· + 1)⟩

end Branch

/-- Takes the lighter one of two first branches away; of equal ones the first list's. -/
def lightest? : List Branch → List Branch → Option (Branch × List Branch × List Branch)
  | [], [] => none
  | a :: leaves, [] => some (a, leaves, [])
  | [], b :: joined => some (b, [], joined)
  | a :: leaves, b :: joined =>
    if b.weight < a.weight then some (b, a :: leaves, joined) else some (a, leaves, b :: joined)

/-- Joins leaves, which come in order of weight, and branches joined before, until one is left, and
gives the depths of its leaves. -/
def joinAll : (fuel : Nat) → (leaves joined : List Branch) → List Nat
  | 0, _, _ => []
  | fuel + 1, leaves, joined =>
    match lightest? leaves joined with
    | none => []
    | some (a, leaves, joined) =>
      match lightest? leaves joined with
      | none => a.depths
      | some (b, leaves, joined) => joinAll fuel leaves (joined ++ [a.join b])

def depths (weights : List Nat) : List Nat :=
  joinAll weights.length (weights.map .leaf) []

/-- The share of all bit patterns of `limit` bits that begin with a word of this length. -/
def share (limit length : Nat) : Nat :=
  1 <<< (limit - length)

/-- Frees one pattern of `limit` bits: a word of that length and the longest shorter one both become
one bit longer than the latter. The lengths come in descending order, and stay so. -/
def relieve (limit : Nat) (lengths : List Nat) : List Nat :=
  match lengths.takeWhile (· = limit), lengths.dropWhile (· = limit) with
  | _ :: longest, length :: rest => longest ++ (length + 1) :: (length + 1) :: rest
  | _, _ => lengths

def relieveTimes (limit : Nat) : (times : Nat) → List Nat → List Nat
  | 0, lengths => lengths
  | times + 1, lengths => relieveTimes limit times (relieve limit lengths)

/-- Word lengths from 1 to `limit` in place of the depths, both in descending order. -/
def limited (limit : Nat) (depths : List Nat) : List Nat :=
  let lengths := depths.map fun d => min limit (max 1 d)
  let shares := lengths.foldr (fun l n => share limit l + n) 0
  relieveTimes limit (shares - share limit 0) lengths

/-- The word lengths of symbols that occur so many times each, 0 for one that does not occur. Of two
symbols, the one that occurs less often has no shorter word; of equally frequent ones, the first. -/
def ofCounts (limit : Nat) (counts : List Nat) : List Nat :=
  let occurring := counts.zipIdx.filter fun (count, _) => count ≠ 0
  let rising := occurring.mergeSort fun a b => a.1 ≤ b.1
  let falling := (depths (rising.map (·.1))).mergeSort fun a b => b ≤ a
  let found := (rising.map (·.2)).zip (limited limit falling)
  (found.foldl (fun lengths (symbol, length) => lengths.set! symbol length)
    (Array.replicate counts.length 0)).toList

theorem length_ofCounts (limit : Nat) (counts : List Nat) :
    (ofCounts limit counts).length = counts.length := by
  have kept (found : List (Nat × Nat)) (lengths : Array Nat) :
      (found.foldl (fun lengths (symbol, length) => lengths.set! symbol length) lengths).size =
        lengths.size := by
    induction found generalizing lengths with
    | nil => rfl
    | cons f found ih =>
      obtain ⟨symbol, length⟩ := f
      rw [List.foldl_cons, ih]
      exact Array.size_setIfInBounds
  rw [ofCounts, Array.length_toList, kept, Array.size_replicate]

end Spool.Flate.WordLength
