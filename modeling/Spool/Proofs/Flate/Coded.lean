import Spool.Proofs.Flate.Code

/-!
Tokens written in two codes and read back, up to the end of their block.
-/

namespace Spool.Flate

variable {literals distances : Words} {first second : Code} {out mid final : ByteArray}

/-- Two codes that read back what a block needs of them. -/
structure Deciphers (literals distances : Words) (first second : Code) (tokens : List Token) :
    Prop where
  literals : ∀ symbol ∈ literalSymbols tokens, literals.Reads first symbol
  distances : ∀ symbol ∈ distanceSymbols tokens, distances.Reads second symbol

namespace Deciphers

variable {t : Token} {tokens : List Token}

theorem head (both : Deciphers literals distances first second (t :: tokens)) :
    literals.Reads first t.literalSymbol :=
  both.literals _ (List.mem_cons_of_mem _ List.mem_cons_self)

theorem tail (both : Deciphers literals distances first second (t :: tokens)) :
    Deciphers literals distances first second tokens where
  literals symbol member := by
    refine both.literals symbol ?_
    rcases List.mem_cons.mp member with rfl | later
    · exact List.mem_cons_self
    · exact List.mem_cons_of_mem _ (List.mem_cons_of_mem _ later)
  distances symbol member := by
    obtain ⟨token, there, same⟩ := List.mem_filterMap.mp member
    exact both.distances symbol (List.mem_filterMap.mpr ⟨token, List.mem_cons_of_mem _ there, same⟩)

theorem far {length distance : Nat}
    (both : Deciphers literals distances first second (.copy length distance :: tokens)) :
    distances.Reads second (split distanceTable distance).1 :=
  both.distances _ (List.mem_filterMap.mpr ⟨_, List.mem_cons_self, rfl⟩)

theorem finish (both : Deciphers literals distances first second tokens) :
    literals.Reads first endOfBlock :=
  both.literals _ List.mem_cons_self

end Deciphers

theorem symbols?_literal {byte : UInt8} (reads : literals.Reads first byte.toNat) (fuel : Nat)
    (rest : Bits) : Inflate.symbols? first second (fuel + 1) out
      (Token.bits literals distances (.literal byte) ++ rest) =
        Inflate.symbols? first second fuel (out.push byte) rest := by
  rw [Token.bits, Inflate.symbols?, reads.2]
  simp only [UInt8.ofNat_toNat]
  exact if_pos byte.toNat_lt

theorem symbols?_copy {length distance : Nat} (fits : (Token.copy length distance).Fits)
    (near : literals.Reads first (Token.copy length distance).literalSymbol)
    (far : distances.Reads second (split distanceTable distance).1)
    (expands : (Token.copy length distance).expand? out = some mid) (fuel : Nat) (rest : Bits) :
    Inflate.symbols? first second (fuel + 1) out
      (Token.bits literals distances (.copy length distance) ++ rest) =
        Inflate.symbols? first second fuel mid rest := by
  obtain ⟨least, most, pos, within⟩ := fits
  have lengths := (splits_length least most).value?
  have distances := (splits_distance pos within).value?
  have place : (Token.copy length distance).literalSymbol - (endOfBlock + 1) =
      (split lengthTable length).1 := Nat.add_sub_cancel_left ..
  have beyond : endOfBlock < (Token.copy length distance).literalSymbol :=
    Nat.lt_of_lt_of_le (Nat.lt_succ_self endOfBlock) (Nat.le_add_right _ _)
  rw [Token.bits]
  simp only [List.append_assoc]
  rw [← Token.literalSymbol, Inflate.symbols?, near.2]
  simp only [if_neg (Nat.not_lt.mpr (Nat.le_of_lt beyond)), if_neg (Nat.ne_of_gt beyond), place,
    Inflate.copy?, lengths, far.2, distances, expands, Option.bind_eq_bind, Option.bind_some,
    Option.pure_def]

theorem symbols?_token {t : Token} {tokens : List Token} (fits : t.Fits)
    (both : Deciphers literals distances first second (t :: tokens))
    (expands : t.expand? out = some mid) (fuel : Nat) (rest : Bits) :
    Inflate.symbols? first second (fuel + 1) out (t.bits literals distances ++ rest) =
      Inflate.symbols? first second fuel mid rest := by
  cases t with
  | literal byte =>
    cases expands
    exact symbols?_literal both.head fuel rest
  | copy length distance => exact symbols?_copy fits both.head both.far expands fuel rest

theorem symbols?_end (reads : literals.Reads first endOfBlock) (fuel : Nat) (rest : Bits) :
    Inflate.symbols? first second (fuel + 1) out (literals.word endOfBlock ++ rest) =
      some (out, rest) := by
  rw [Inflate.symbols?, reads.2]
  rfl

theorem symbols?_coded {tokens : List Token} (fits : ∀ t ∈ tokens, t.Fits)
    (both : Deciphers literals distances first second tokens)
    (expands : Token.expandAll? out tokens = some final) {fuel : Nat} (enough : tokens.length < fuel)
    (rest : Bits) : Inflate.symbols? first second fuel out
      (coded literals distances tokens ++ rest) = some (final, rest) := by
  induction tokens generalizing out fuel with
  | nil =>
    obtain ⟨fuel, rfl⟩ := Nat.exists_eq_succ_of_ne_zero (Nat.ne_of_gt enough)
    cases expands
    exact symbols?_end both.finish fuel rest
  | cons t tokens ih =>
    obtain ⟨fuel, rfl⟩ := Nat.exists_eq_succ_of_ne_zero (Nat.ne_of_gt (Nat.zero_lt_of_lt enough))
    obtain ⟨mid, now, later⟩ := Option.bind_eq_some_iff.mp expands
    rw [coded, List.flatMap_cons, List.append_assoc, List.append_assoc,
      symbols?_token (fits t List.mem_cons_self) both now, ← List.append_assoc]
    exact ih (fun t member => fits t (List.mem_cons_of_mem _ member)) both.tail later
      (Nat.lt_of_succ_lt_succ enough)

theorem length_bits_pos {t : Token} (reads : literals.Reads first t.literalSymbol) :
    0 < (t.bits literals distances).length := by
  have pos := List.length_pos_iff.mpr reads.1
  cases t with
  | literal byte => exact pos
  | copy length distance =>
    rw [Token.bits]
    simp only [List.length_append]
    exact Nat.lt_of_lt_of_le pos (by rw [Token.literalSymbol]; omega)

/-- Every token takes a bit. -/
theorem length_le_coded {tokens : List Token}
    (both : Deciphers literals distances first second tokens) :
    tokens.length ≤ (coded literals distances tokens).length := by
  induction tokens with
  | nil => exact Nat.zero_le _
  | cons t tokens ih =>
    have less := ih both.tail
    have pos : 0 < (t.bits literals distances).length := length_bits_pos both.head
    rw [coded, List.flatMap_cons, List.append_assoc, List.length_append, List.length_cons]
    rw [coded] at less
    omega

end Spool.Flate
