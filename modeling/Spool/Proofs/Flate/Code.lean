import Mathlib.Tactic.Common
import Spool.Flate.Inflate
import Spool.Proofs.Flate.Bits

/-!
Words of a code, and numbers split by a table, are read back. A code that is not overfull has room
for all of its words, and no word begins with another one.
-/

namespace Spool.Flate

variable {lengths : List Nat} {symbol : Nat}

namespace Code

/-- One bit of a word is read: the number it makes up is the word without the bits behind it. -/
theorem readFrom_bit (symbols : List Nat) (code : Code) (m more first : Nat) (rest : Bits) :
    readFrom (symbols :: code) (m / 2 ^ (more + 1)) first (Bits.codeWord (more + 1) m ++ rest) =
      if m / 2 ^ more < first + symbols.length then
        if first ≤ m / 2 ^ more then
          (symbols[m / 2 ^ more - first]?).map (·, Bits.codeWord more m ++ rest)
        else none
      else readFrom code (m / 2 ^ more) (2 * (first + symbols.length))
        (Bits.codeWord more m ++ rest) := by
  have bit : (m / 2 ^ more % 2 == 1).toNat = m / 2 ^ more % 2 := by
    rcases Nat.mod_two_eq_zero_or_one (m / 2 ^ more) with h | h <;> rw [h] <;> rfl
  have next : 2 * (m / 2 ^ (more + 1)) + m / 2 ^ more % 2 = m / 2 ^ more := by
    rw [Nat.pow_succ, ← Nat.div_div_eq_div_mul]
    omega
  rw [Bits.codeWord_succ, List.cons_append]
  simp only [readFrom, bit, next]

/-- A word is found where its length is, and no word in front of it is taken for it: the bits of it
read before are then the number `m / 2 ^ (more + 1)`. -/
theorem wordFrom_cases (symbol : Nat) (code : Code) (length first room : Nat)
    (space : first + 2 * room = 2 ^ length) (fits : overfull room code = false) :
    wordFrom symbol code length first = [] ∨ ∃ more m,
      wordFrom symbol code length first = Bits.codeWord (length + more) m ∧
        m < 2 ^ (length + more) ∧ first * 2 ^ more ≤ m ∧
          ∀ rest, readFrom code (m / 2 ^ (more + 1)) first (Bits.codeWord (more + 1) m ++ rest) =
            some (symbol, rest) := by
  induction code generalizing length first room with
  | nil => exact .inl rfl
  | cons symbols code ih =>
    simp only [overfull, Bool.or_eq_false_iff, decide_eq_false_iff_not, Nat.not_lt] at fits
    obtain ⟨enough, fits⟩ := fits
    cases found : symbols.idxOf? symbol with
    | some place =>
      obtain ⟨inside, same, -⟩ := List.idxOf?_eq_some_iff.mp found
      have there : symbols[place]? = some symbol := by
        rw [List.getElem?_eq_getElem inside, same]
      refine .inr ⟨0, first + place, ?_, ?_, ?_, fun rest => ?_⟩
      · simp only [wordFrom, found, Nat.add_zero]
      · rw [Nat.add_zero]
        omega
      · rw [Nat.pow_zero, Nat.mul_one]
        exact Nat.le_add_right first place
      · have word : (first + place) / 2 ^ 0 = first + place := by
          rw [Nat.pow_zero, Nat.div_one]
        rw [readFrom_bit, word, if_pos (Nat.add_lt_add_left inside first),
          if_pos (Nat.le_add_right first place), Nat.add_sub_cancel_left, there]
        rfl
    | none =>
      have skips : wordFrom symbol (symbols :: code) length first =
          wordFrom symbol code (length + 1) (2 * (first + symbols.length)) := by
        simp only [wordFrom, found]
      have space : 2 * (first + symbols.length) + 2 * (2 * room - symbols.length) =
          2 ^ (length + 1) := by
        rw [Nat.pow_succ]
        omega
      rw [skips]
      refine (ih (length + 1) _ _ space fits).imp_right ?_
      rintro ⟨more, m, word, small, least, reads⟩
      rw [Nat.add_right_comm] at word small
      have beyond : first + symbols.length ≤ m / 2 ^ (more + 1) := by
        rw [Nat.le_div_iff_mul_le (Nat.two_pow_pos _), Nat.pow_succ']
        calc (first + symbols.length) * (2 * 2 ^ more)
            = 2 * (first + symbols.length) * 2 ^ more := by rw [Nat.mul_left_comm, Nat.mul_assoc]
          _ ≤ m := least
      refine ⟨more + 1, m, word, small, ?_, fun rest => ?_⟩
      · refine Nat.le_trans (Nat.mul_le_mul_right _ (Nat.le_add_right first symbols.length)) ?_
        exact (Nat.le_div_iff_mul_le (Nat.two_pow_pos _)).mp beyond
      · rw [readFrom_bit, if_neg (Nat.not_lt.mpr beyond), reads]

theorem read?_word {code : Code} (fits : overfull 1 code = false) (worded : code.word symbol ≠ [])
    (rest : Bits) : code.read? (code.word symbol ++ rest) = some (symbol, rest) := by
  obtain ⟨more, m, word, small, -, reads⟩ :=
    (wordFrom_cases symbol code 1 0 1 rfl fits).resolve_left worded
  have none : m / 2 ^ (more + 1) = 0 := Nat.div_eq_of_lt (Nat.add_comm 1 more ▸ small)
  rw [Code.word, word, Code.read?, Nat.add_comm 1 more]
  rw [none] at reads
  exact reads rest

theorem wordFrom_ne_nil {code : Code} {symbols : List Nat} (present : symbol ∈ symbols)
    (member : symbols ∈ code) {length first : Nat} (pos : 0 < length) :
    wordFrom symbol code length first ≠ [] := by
  induction code generalizing length first with
  | nil => cases member
  | cons level code ih =>
    cases found : level.idxOf? symbol with
    | some place =>
      simp only [wordFrom, found]
      exact List.ne_nil_of_length_pos (Nat.lt_of_lt_of_eq pos (Bits.length_codeWord _ _).symm)
    | none =>
      simp only [wordFrom, found]
      rcases List.mem_cons.mp member with rfl | later
      · exact absurd present (List.idxOf?_eq_none_iff.mp found)
      · exact ih later (Nat.succ_pos length)

theorem mem_symbolsOf {length : Nat} (there : lengths[symbol]? = some length) :
    symbol ∈ symbolsOf lengths length := by
  refine List.mem_filterMap.mpr ⟨(length, symbol), ?_, if_pos rfl⟩
  exact List.mk_mem_zipIdx_iff_getElem?.mpr there

theorem of_ofLengths? {code : Code} (gives : ofLengths? lengths = some code) :
    overfull 1 code = false ∧
      code = (List.range maxWord).map fun n => symbolsOf lengths (n + 1) := by
  simp only [ofLengths?] at gives
  split at gives
  · cases gives
  · next fits =>
    cases gives
    exact ⟨eq_false_of_ne_true fits, rfl⟩

theorem word_ne_nil {code : Code} {length : Nat} (gives : ofLengths? lengths = some code)
    (there : lengths[symbol]? = some length) (pos : 0 < length) (most : length ≤ maxWord) :
    code.word symbol ≠ [] := by
  refine wordFrom_ne_nil (mem_symbolsOf there) ?_ Nat.one_pos
  rw [(of_ofLengths? gives).2]
  refine List.mem_map.mpr ⟨length - 1, List.mem_range.mpr (by omega), ?_⟩
  rw [Nat.sub_add_cancel pos]

end Code

/-- Symbols with words that a code reads back. -/
def Words.Reads (words : Words) (code : Code) (symbol : Nat) : Prop :=
  words.word symbol ≠ [] ∧
    ∀ rest, code.read? (words.word symbol ++ rest) = some (symbol, rest)

theorem Words.word_words (code : Code) (count : Nat) :
    (code.words count).word symbol = if symbol < count then code.word symbol else [] := by
  rw [Words.word, Code.words, Array.getD_eq_getD_getElem?, Array.getElem?_ofFn]
  split <;> rfl

/-- Where a symbol has a word, the lengths give a code, which reads that word. -/
theorem reads_of_ne_nil (worded : (wordsOf lengths).word symbol ≠ []) :
    ∃ code, Code.ofLengths? lengths = some code ∧ (wordsOf lengths).Reads code symbol := by
  have word := worded
  rw [wordsOf, Words.word_words] at word
  split at word
  · next inside =>
    cases gives : Code.ofLengths? lengths with
    | none => rw [gives] at word; exact absurd rfl word
    | some code =>
      rw [gives, Option.getD_some] at word
      refine ⟨code, rfl, worded, fun rest => ?_⟩
      rw [wordsOf, Words.word_words, if_pos inside, gives, Option.getD_some]
      exact Code.read?_word (Code.of_ofLengths? gives).1 word rest
  · exact absurd rfl word

theorem reads_of_cover {symbols : List Nat} {code : Code}
    (gives : Code.ofLengths? lengths = some code) (covers : (wordsOf lengths).cover symbols = true)
    (member : symbol ∈ symbols) : (wordsOf lengths).Reads code symbol := by
  have worded := List.all_eq_true.mp covers symbol member
  simp only [Bool.not_eq_true', List.isEmpty_eq_false_iff] at worded
  obtain ⟨other, same, reads⟩ := reads_of_ne_nil worded
  cases gives.symm.trans same
  exact reads

theorem reads_of_length {code : Code} {length : Nat}
    (gives : Code.ofLengths? lengths = some code) (there : lengths[symbol]? = some length)
    (pos : 0 < length) (most : length ≤ Code.maxWord) : (wordsOf lengths).Reads code symbol := by
  obtain ⟨inside, -⟩ := List.getElem?_eq_some_iff.mp there
  have worded : (wordsOf lengths).word symbol ≠ [] := by
    rw [wordsOf, Words.word_words, if_pos inside, gives]
    exact Code.word_ne_nil gives there pos most
  obtain ⟨other, same, reads⟩ := reads_of_ne_nil worded
  cases gives.symm.trans same
  exact reads

/-- The rows of a table follow each other without a gap up to a limit. -/
def Gapless (limit : Nat) : Nat × Nat → List (Nat × Nat) → Prop
  | (base, extra), [] => limit ≤ base + 2 ^ extra
  | (base, extra), next :: rest => next.1 ≤ base + 2 ^ extra ∧ Gapless limit next rest

instance decidableGapless (limit : Nat) :
    (row : Nat × Nat) → (rest : List (Nat × Nat)) → Decidable (Gapless limit row rest)
  | (_, _), [] => inferInstanceAs (Decidable (_ ≤ _))
  | (_, _), next :: rest =>
    have := decidableGapless limit next rest
    inferInstanceAs (Decidable (_ ∧ _))

/-- A value split by a row of a table is put together again. -/
def Splits (table : List (Nat × Nat)) (value : Nat) (parts : Nat × Nat × Nat) : Prop :=
  ∃ base, table[parts.1]? = some (base, parts.2.1) ∧ base + parts.2.2 = value ∧
    parts.2.2 < 2 ^ parts.2.1

theorem splits_splitFrom {table rest : List (Nat × Nat)} {limit value row base extra : Nat}
    (gapless : Gapless limit (base, extra) rest) (follows : table.drop row = (base, extra) :: rest)
    (least : base ≤ value) (most : value < limit) :
    Splits table value (splitFrom value (row + 1) rest (row, extra, value - base)) := by
  have there : table[row]? = some (base, extra) := by
    rw [← List.head?_drop, follows, List.head?_cons]
  induction rest generalizing row base extra with
  | nil =>
    have limit : limit ≤ base + 2 ^ extra := gapless
    refine ⟨base, there, Nat.add_sub_cancel' least, ?_⟩
    simp only [splitFrom]
    omega
  | cons next rest ih =>
    obtain ⟨nextBase, nextExtra⟩ := next
    obtain ⟨close, gapless⟩ := gapless
    have later : table.drop (row + 1) = (nextBase, nextExtra) :: rest := by
      rw [← List.drop_drop, follows, List.drop_one, List.tail_cons]
    simp only [splitFrom]
    split
    · next below =>
      refine ⟨base, there, Nat.add_sub_cancel' least, ?_⟩
      simp only at close ⊢
      omega
    · next reached =>
      refine ih gapless later (Nat.not_lt.mp reached) ?_
      rw [← List.head?_drop, later, List.head?_cons]

theorem splits_split {rest : List (Nat × Nat)} {limit value base extra : Nat}
    (gapless : Gapless limit (base, extra) rest) (least : base ≤ value) (most : value < limit) :
    Splits ((base, extra) :: rest) value (split ((base, extra) :: rest) value) := by
  rw [split, splitFrom, if_neg (Nat.not_lt.mpr least)]
  exact splits_splitFrom gapless rfl least most

theorem splits_length {length : Nat} (least : Token.minLength ≤ length)
    (most : length ≤ Token.maxLength) : Splits lengthTable length (split lengthTable length) := by
  have gapless : Gapless 259 (3, 0) lengthTable.tail := by decide
  exact splits_split gapless least (Nat.lt_succ_of_le most)

theorem splits_distance {distance : Nat} (least : 1 ≤ distance)
    (most : distance ≤ Token.maxDistance) :
    Splits distanceTable distance (split distanceTable distance) := by
  have gapless : Gapless 32769 (1, 0) distanceTable.tail := by decide
  exact splits_split gapless least (Nat.lt_succ_of_le most)

theorem Splits.row_lt {table : List (Nat × Nat)} {value : Nat} {parts : Nat × Nat × Nat}
    (splits : Splits table value parts) : parts.1 < table.length := by
  obtain ⟨base, there, -, -⟩ := splits
  exact (List.getElem?_eq_some_iff.mp there).1

theorem Splits.value? {table : List (Nat × Nat)} {value : Nat} {parts : Nat × Nat × Nat}
    (splits : Splits table value parts) (rest : Bits) :
    Inflate.value? table parts.1 (Bits.ofNat parts.2.1 parts.2.2 ++ rest) = some (value, rest) := by
  obtain ⟨base, there, sum, small⟩ := splits
  rw [Inflate.value?, there]
  simp only [Bits.take?_ofNat small, Option.map_some, sum]

end Spool.Flate
