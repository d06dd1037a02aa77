import Spool.Proofs.Flate.Coded
import Spool.Proofs.Flate.Description

/-!
Blocks are read back: in the fixed code, in a code of their own, and stored. A reader finds a byte's
end by how many bits are left, so what is left must end with a byte.
-/

namespace Spool.Flate

variable {tokens : List Token} {out final : ByteArray} {literals distances : Words}

theorem literalSymbol_lt {t : Token} (fits : t.Fits) : t.literalSymbol < literalCount := by
  cases t with
  | literal byte => exact Nat.lt_trans byte.toNat_lt (by decide)
  | copy length distance =>
    obtain ⟨least, most, -, -⟩ := fits
    exact Nat.add_lt_add_left (splits_length least most).row_lt _

theorem distanceSymbol_lt {t : Token} (fits : t.Fits) {symbol : Nat}
    (some : t.distanceSymbol? = .some symbol) : symbol < distanceCount := by
  cases t with
  | literal byte => cases some
  | copy length distance =>
    obtain ⟨-, -, pos, within⟩ := fits
    cases some
    exact (splits_distance pos within).row_lt

theorem mem_literalSymbols_lt (fits : ∀ t ∈ tokens, t.Fits) {symbol : Nat}
    (member : symbol ∈ literalSymbols tokens) : symbol < literalCount := by
  rcases List.mem_cons.mp member with rfl | later
  · decide
  · obtain ⟨t, there, rfl⟩ := List.mem_map.mp later
    exact literalSymbol_lt (fits t there)

theorem mem_distanceSymbols_lt (fits : ∀ t ∈ tokens, t.Fits) {symbol : Nat}
    (member : symbol ∈ distanceSymbols tokens) : symbol < distanceCount := by
  obtain ⟨t, there, some⟩ := List.mem_filterMap.mp member
  exact distanceSymbol_lt (fits t there) some

theorem reads_of_lengths {lengths : List Nat} {code : Code} {symbol : Nat}
    (gives : Code.ofLengths? lengths = some code)
    (words : ∀ n ∈ lengths, 0 < n ∧ n ≤ Code.maxWord) (inside : symbol < lengths.length) :
    (wordsOf lengths).Reads code symbol := by
  obtain ⟨pos, most⟩ := words _ (List.getElem_mem inside)
  exact reads_of_length gives (List.getElem?_eq_getElem inside) pos most

theorem fixedLengths_bounds {n : Nat} (member : n ∈ fixedLengths) : 0 < n ∧ n ≤ Code.maxWord := by
  simp only [fixedLengths, List.mem_append, List.mem_replicate] at member
  rcases member with ((⟨-, rfl⟩ | ⟨-, rfl⟩) | ⟨-, rfl⟩) | ⟨-, rfl⟩ <;> decide

theorem fixedDistances_bounds {n : Nat} (member : n ∈ fixedDistances) :
    0 < n ∧ n ≤ Code.maxWord := by
  cases List.eq_of_mem_replicate member
  decide

theorem length_fixedLengths : fixedLengths.length = 288 := by
  simp only [fixedLengths, List.length_append, List.length_replicate]

theorem exists_fixedLiterals : ∃ code, Code.ofLengths? fixedLengths = some code :=
  Option.isSome_iff_exists.mp (by decide +kernel)

theorem exists_fixedDistances : ∃ code, Code.ofLengths? fixedDistances = some code :=
  Option.isSome_iff_exists.mp (by decide +kernel)

theorem deciphers_fixed (fits : ∀ t ∈ tokens, t.Fits) : ∃ first second,
    Code.ofLengths? fixedLengths = some first ∧ Code.ofLengths? fixedDistances = some second ∧
      Deciphers fixedLiteralWords fixedDistanceWords first second tokens := by
  obtain ⟨first, gives⟩ := exists_fixedLiterals
  obtain ⟨second, other⟩ := exists_fixedDistances
  refine ⟨first, second, gives, other, fun symbol member => ?_, fun symbol member => ?_⟩
  · refine reads_of_lengths gives (fun n => fixedLengths_bounds) ?_
    rw [length_fixedLengths]
    exact Nat.lt_trans (mem_literalSymbols_lt fits member) (by decide)
  · refine reads_of_lengths other (fun n => fixedDistances_bounds) ?_
    exact Nat.lt_of_lt_of_le (mem_distanceSymbols_lt fits member) (by decide)

/-- So many symbols as there are bits are enough. -/
theorem symbols?_all {first second : Code} (fits : ∀ t ∈ tokens, t.Fits)
    (both : Deciphers literals distances first second tokens)
    (expands : Token.expandAll? out tokens = some final) (rest : Bits) :
    let bits := coded literals distances tokens ++ rest
    Inflate.symbols? first second (bits.length + 1) out bits = some (final, rest) := by
  have less := length_le_coded both
  refine symbols?_coded fits both expands ?_ rest
  rw [List.length_append]
  omega

theorem block?_fixedBlock (fits : ∀ t ∈ tokens, t.Fits)
    (expands : Token.expandAll? out tokens = some final) (last : Bool) (rest : Bits) :
    Inflate.block? out (last :: (fixedBlock tokens ++ rest)) = some (last, final, rest) := by
  obtain ⟨first, second, gives, other, both⟩ := deciphers_fixed fits
  have read := symbols?_all fits both expands rest
  rw [fixedBlock, List.cons_append, List.cons_append, Inflate.block?]
  simp only [gives, other, read, Option.bind_eq_bind, Option.bind_some, Option.pure_def]

theorem trimmed_no_distances :
    trimmed 1 (WordLength.ofCounts Code.maxWord (tally distanceCount [])) = [0] := by
  decide +kernel

/-- The word lengths of a block's own code are as many as can be announced, and can be written. -/
theorem ownLengths_bounds {least count : Nat} (few : least ≤ count) (symbols : List Nat) :
    let lengths := trimmed least (WordLength.ofCounts Code.maxWord (tally count symbols))
    (least ≤ lengths.length ∧ lengths.length ≤ count) ∧ ∀ n ∈ lengths, n < 16 := by
  have all : (WordLength.ofCounts Code.maxWord (tally count symbols)).length = count := by
    rw [WordLength.length_ofCounts, length_tally]
  refine ⟨?_, fun n member =>
    Nat.lt_succ_of_le (WordLength.ofCounts_le (mem_of_mem_trimmed member))⟩
  rw [← all] at few
  have bounds := length_trimmed few
  rwa [all] at bounds

/-- Without copies there may be no word for a distance. -/
theorem exists_distances {lengths : List Nat}
    (covers : (wordsOf lengths).cover (distanceSymbols tokens) = true)
    (unused : distanceSymbols tokens = [] → lengths = [0]) :
    ∃ code, Code.ofLengths? lengths = some code := by
  by_cases none : distanceSymbols tokens = []
  · rw [unused none]
    exact ⟨_, rfl⟩
  · exact exists_code_of_cover covers none

theorem block?_ownBlock {block : Bits} (written : ownBlock? tokens = some block)
    (fits : ∀ t ∈ tokens, t.Fits) (expands : Token.expandAll? out tokens = some final) (last : Bool)
    (rest : Bits) : Inflate.block? out (last :: (block ++ rest)) = some (last, final, rest) := by
  simp only [ownBlock?] at written
  split at written
  · next covers =>
    obtain ⟨description, described, rfl⟩ := Option.map_eq_some_iff.mp written
    rw [Bool.and_eq_true] at covers
    obtain ⟨covers, covers'⟩ := covers
    have unused : distanceSymbols tokens = [] → trimmed 1
        (WordLength.ofCounts Code.maxWord (tally distanceCount (distanceSymbols tokens))) = [0] :=
      fun none => by rw [none, trimmed_no_distances]
    have near : endOfBlock + 1 ≤ literalCount := by decide
    obtain ⟨⟨least, most⟩, small⟩ := ownLengths_bounds near (literalSymbols tokens)
    have far : 1 ≤ distanceCount := by decide
    obtain ⟨⟨pos, few⟩, small'⟩ := ownLengths_bounds far (distanceSymbols tokens)
    generalize trimmed (endOfBlock + 1) _ = lengths at *
    generalize trimmed 1 _ = lengths' at *
    obtain ⟨first, gives⟩ := exists_code_of_cover covers (List.cons_ne_nil _ _)
    obtain ⟨second, other⟩ := exists_distances covers' unused
    have both : Deciphers (wordsOf lengths) (wordsOf lengths') first second tokens :=
      ⟨fun _ => reads_of_cover gives covers, fun _ => reads_of_cover other covers'⟩
    have read := symbols?_all fits both expands rest
    have codes := codes?_description described gives other
      (fun n member => (List.mem_append.mp member).elim (small n) (small' n)) least most pos few
      (coded (wordsOf lengths) (wordsOf lengths') tokens ++ rest)
    rw [List.cons_append, List.cons_append, List.append_assoc, Inflate.block?]
    simp only [codes, read, Option.bind_eq_bind, Option.bind_some, Option.pure_def]
  · cases written

theorem block?_codedBlock {s : Segment} (fits : ∀ t ∈ s.tokens, t.Fits)
    (expands : Token.expandAll? out s.tokens = some final) (last : Bool) (rest : Bits) :
    Inflate.block? out (last :: (codedBlock s ++ rest)) = some (last, final, rest) := by
  rw [codedBlock]
  split
  · exact block?_fixedBlock fits expands last rest
  · cases written : ownBlock? s.tokens with
    | none => exact block?_fixedBlock fits expands last rest
    | some block => exact block?_ownBlock written fits expands last rest

theorem length_alignment (used : Nat) : (alignment used).length = (8 - used % 8) % 8 :=
  List.length_replicate

/-- Behind so many bits, what is left up to the end of a byte is dropped. -/
theorem align_alignment {used : Nat} {bits : Bits} (whole : bits.length % 8 = 0) :
    Inflate.align (alignment used ++ bits) = bits := by
  have dropped : (alignment used ++ bits).length % 8 = (alignment used).length := by
    rw [List.length_append, length_alignment]
    omega
  rw [Inflate.align, dropped, List.drop_left]

theorem bytes?_ofBytes (content : List UInt8) (out : ByteArray) (rest : Bits) :
    Inflate.bytes? content.length out (Bits.ofBytes content ++ rest) =
      some (content.foldl ByteArray.push out, rest) := by
  induction content generalizing out with
  | nil => rfl
  | cons byte content ih =>
    have small : byte.toNat < Nat.pow 2 8 := byte.toNat_lt
    rw [List.length_cons, Bits.ofBytes_cons, List.append_assoc, Inflate.bytes?,
      Bits.take?_ofNat small]
    simp only [UInt8.ofNat_toNat, ih, List.foldl_cons]

theorem stored?_bytes (out : ByteArray) {content : List UInt8} (most : content.length ≤ maxStored)
    (used : Nat) {rest : Bits} (whole : rest.length % 8 = 0) :
    Inflate.stored? out (alignment used ++ (Bits.ofNat 16 content.length ++
      (Bits.ofNat 16 (0xffff - content.length) ++ (Bits.ofBytes content ++ rest)))) =
        some (content.foldl ByteArray.push out, rest) := by
  have small : content.length < Nat.pow 2 16 := Nat.lt_succ_of_le most
  have small' : 0xffff - content.length < Nat.pow 2 16 := Nat.lt_succ_of_le (Nat.sub_le ..)
  have sum : content.length + (0xffff - content.length) = 0xffff := Nat.add_sub_cancel' most
  rw [Inflate.stored?, align_alignment]
  · simp only [Bits.take?_ofNat small, Bits.take?_ofNat small', sum, if_true, bytes?_ofBytes]
  · simp only [List.length_append, Bits.length_ofNat, Bits.length_ofBytes]
    omega

theorem length_storedBlock (used : Nat) (content : List UInt8) :
    (used + (storedBlock used content).length) % 8 = 0 := by
  simp only [storedBlock, List.length_append, List.length_cons, List.length_nil, length_alignment,
    Bits.length_ofNat, Bits.length_ofBytes]
  omega

/-- What is behind a stored block begins with a byte. -/
theorem block?_storedBlock {content : List UInt8} (most : content.length ≤ maxStored) {used : Nat}
    {rest : Bits} (whole : (used + (storedBlock used content).length + rest.length) % 8 = 0) :
    Inflate.block? out (storedBlock used content ++ rest) =
      some (false, content.foldl ByteArray.push out, rest) := by
  have behind : rest.length % 8 = 0 := by
    have before := length_storedBlock used content
    omega
  have read := stored?_bytes out most (used + 3) behind
  rw [storedBlock]
  simp only [List.append_assoc, List.cons_append, List.nil_append, Inflate.block?, read,
    Option.map_some]

/-- Segments that make up some content from a position on. -/
inductive Parts (content : ByteArray) : Nat → List Segment → Prop
  | nil : Parts content content.size []
  | cons {s : Segment} {rest : List Segment} : (∀ t ∈ s.tokens, t.Fits) →
      Token.expandAll? (content.extract 0 s.start) s.tokens =
        some (content.extract 0 (s.start + s.size)) →
      s.start + s.size ≤ content.size → Parts content (s.start + s.size) rest →
      Parts content s.start (s :: rest)

theorem foldl_push_bytes (content : ByteArray) (s : Segment) :
    (s.bytes content).foldl ByteArray.push (content.extract 0 s.start) =
      content.extract 0 (s.start + s.size) := by
  rw [← toList_inj, toList_foldl_push, Segment.bytes, ← toList_append,
    ← ByteArray.extract_eq_extract_append_extract s.start (Nat.zero_le _) (Nat.le_add_right _ _)]

theorem length_bytes {content : ByteArray} {s : Segment}
    (inside : s.start + s.size ≤ content.size) : (s.bytes content).length = s.size := by
  rw [Segment.bytes, length_toList, ByteArray.size_extract]
  omega

theorem block?_segmentBlock {content : ByteArray} {s : Segment} (fits : ∀ t ∈ s.tokens, t.Fits)
    (expands : Token.expandAll? (content.extract 0 s.start) s.tokens =
      some (content.extract 0 (s.start + s.size))) (inside : s.start + s.size ≤ content.size)
    {used : Nat} {rest : Bits}
    (whole : (used + (segmentBlock content used s).length + rest.length) % 8 = 0) :
    Inflate.block? (content.extract 0 s.start) (segmentBlock content used s ++ rest) =
      some (false, content.extract 0 (s.start + s.size), rest) := by
  by_cases stored : isStored used s (codedBlock s) = true
  · have same : segmentBlock content used s = storedBlock used (s.bytes content) := if_pos stored
    simp only [isStored, Bool.and_eq_true, decide_eq_true_eq] at stored
    have most : (s.bytes content).length ≤ maxStored := by
      rw [length_bytes inside]
      exact stored.1.1.2
    rw [same] at whole ⊢
    rw [block?_storedBlock most whole, foldl_push_bytes]
  · have same : segmentBlock content used s = false :: codedBlock s := if_neg stored
    rw [same]
    exact block?_codedBlock fits expands false rest

theorem length_segmentBlock_pos (content : ByteArray) (used : Nat) (s : Segment) :
    0 < (segmentBlock content used s).length := by
  simp only [segmentBlock]
  split
  · simp [storedBlock]
  · simp

theorem blocks?_segmentBlocks {content : ByteArray} {start : Nat} {segments : List Segment}
    (parts : Parts content start segments) (fuel used : Nat) {rest : Bits}
    (whole : (used + (segmentBlocks content used segments).length + rest.length) % 8 = 0) :
    Inflate.blocks? (fuel + segments.length) (content.extract 0 start)
      (segmentBlocks content used segments ++ rest) = Inflate.blocks? fuel content rest := by
  induction parts generalizing used with
  | nil => rw [ByteArray.extract_zero_size]; rfl
  | @cons s later fits expands inside parts ih =>
    simp only [segmentBlocks, List.length_append] at whole
    have now : (used + (segmentBlock content used s).length + (segmentBlocks content
        (used + (segmentBlock content used s).length) later ++ rest).length) % 8 = 0 := by
      rw [List.length_append]
      omega
    have read := block?_segmentBlock fits expands inside now
    rw [List.length_cons, ← Nat.add_assoc, Inflate.blocks?, segmentBlocks, List.append_assoc, read]
    exact ih _ (by omega)

theorem length_le_segmentBlocks (content : ByteArray) (used : Nat) (segments : List Segment) :
    segments.length ≤ (segmentBlocks content used segments).length := by
  induction segments generalizing used with
  | nil => exact Nat.zero_le _
  | cons s rest ih =>
    have pos := length_segmentBlock_pos content used s
    have less := ih (used + (segmentBlock content used s).length)
    rw [segmentBlocks, List.length_append, List.length_cons]
    omega

/-- An empty stored block and an empty last one add nothing. -/
theorem blocks?_ending {content : ByteArray} {last : Bits}
    (empty : ∀ rest, Inflate.block? content (true :: (last ++ rest)) = some (true, content, rest))
    (fuel used : Nat) {rest : Bits}
    (whole : (used + ((storedBlock used []).length + (last.length + 1 + rest.length))) % 8 = 0) :
    Inflate.blocks? (fuel + 2) content (storedBlock used [] ++ true :: (last ++ rest)) =
      some (content, rest) := by
  have behind : (used + (storedBlock used []).length + (true :: (last ++ rest)).length) % 8 = 0 := by
    rw [List.length_cons, List.length_append]
    omega
  have flushed : Inflate.block? content (storedBlock used [] ++ true :: (last ++ rest)) =
      some (false, content, true :: (last ++ rest)) := block?_storedBlock (Nat.zero_le _) behind
  simp only [Inflate.blocks?, flushed, empty]

theorem blocks?_segments {content : ByteArray} {segments : List Segment}
    (parts : Parts content 0 segments) {first last : Bits}
    (same : segmentBlocks content 0 segments = first)
    (empty : ∀ rest, Inflate.block? content (true :: (last ++ rest)) = some (true, content, rest))
    {fuel : Nat} (enough : segments.length + 2 ≤ fuel) {rest : Bits}
    (whole : (first.length + ((storedBlock first.length []).length +
      (last.length + 1 + rest.length))) % 8 = 0) :
    Inflate.blocks? fuel .empty (first ++ (storedBlock first.length [] ++ true :: (last ++ rest))) =
      some (content, rest) := by
  obtain ⟨fuel, rfl⟩ := Nat.exists_eq_add_of_le' enough
  have ends := blocks?_ending empty fuel first.length whole
  have behind : (0 + (segmentBlocks content 0 segments).length +
      (storedBlock first.length [] ++ true :: (last ++ rest)).length) % 8 = 0 := by
    rw [same, List.length_append, List.length_cons, List.length_append]
    omega
  have read := blocks?_segmentBlocks parts (fuel + 2) 0 behind
  rw [ByteArray.extract_same, same] at read
  rw [Nat.add_comm segments.length, ← Nat.add_assoc, read, ends]

/-- The blocks of some content are read back if a whole number of bytes is left with them. -/
theorem inflate?_blocks {content : ByteArray}
    (parts : Parts content 0 (Segment.cut (Matching.steps content))) {rest : Bits}
    (whole : ((blocks content).length + rest.length) % 8 = 0) :
    Inflate.inflate? (blocks content ++ rest) = some (content, rest) := by
  have many := length_le_segmentBlocks content 0 (Segment.cut (Matching.steps content))
  have empty : ∀ rest, Inflate.block? content (true :: (fixedBlock [] ++ rest)) =
      some (true, content, rest) := block?_fixedBlock (fun _ member => by cases member) rfl true
  simp only [blocks] at whole ⊢
  -- the last block is not to be written out
  generalize fixedBlock [] = last at whole empty ⊢
  generalize same : segmentBlocks content 0 _ = first at whole many ⊢
  rw [List.length_append, List.length_append, List.length_cons] at whole
  rw [Inflate.inflate?, List.append_assoc, List.append_assoc, List.cons_append]
  refine blocks?_segments parts same empty ?_ (by omega)
  rw [List.length_append, List.length_append, List.length_cons]
  omega

end Spool.Flate
