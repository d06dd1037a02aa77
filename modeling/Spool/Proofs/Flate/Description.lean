import Mathlib.Data.List.GetD
import Mathlib.Data.List.TakeWhile
import Spool.Proofs.Flate.Code

/-!
The description of two codes and its reading. Word lengths are written as runs in a code whose own
word lengths come first; all these lengths are small enough for the bits that they get.
-/

namespace Spool.Flate

namespace WordLength

variable {limit n : Nat} {lengths : List Nat}

theorem relieve_le (bounded : ∀ n ∈ lengths, n ≤ limit) (member : n ∈ relieve limit lengths) :
    n ≤ limit := by
  unfold relieve at member
  split at member
  · next longest length rest front back =>
    have whole := List.takeWhile_append_dropWhile (p := (· = limit)) (l := lengths)
    rw [front, back] at whole
    have later : ∀ n, n ∈ rest → n ≤ limit := fun n there =>
      bounded n (whole ▸ List.mem_append_right _ (List.mem_cons_of_mem _ there))
    have before : ∀ n, n ∈ longest → n ≤ limit := fun n there =>
      bounded n (whole ▸ List.mem_append_left _ (List.mem_cons_of_mem _ there))
    have below : length + 1 ≤ limit := by
      have most := bounded length (whole ▸ List.mem_append_right _ List.mem_cons_self)
      have other : ¬ length = limit := by
        have stops := List.head?_dropWhile_not (fun n => decide (n = limit)) lengths
        rw [back, List.head?_cons] at stops
        simpa using stops
      omega
    rcases List.mem_append.mp member with there | there
    · exact before n there
    · rcases List.mem_cons.mp there with rfl | there
      · exact below
      · rcases List.mem_cons.mp there with rfl | there
        · exact below
        · exact later n there
  · exact bounded n member

theorem relieveTimes_le (times : Nat) (bounded : ∀ n ∈ lengths, n ≤ limit)
    (member : n ∈ relieveTimes limit times lengths) : n ≤ limit := by
  induction times generalizing lengths with
  | zero => exact bounded n member
  | succ times ih => exact ih (fun m there => relieve_le bounded there) member

theorem limited_le {depths : List Nat} (member : n ∈ limited limit depths) : n ≤ limit := by
  refine relieveTimes_le _ (fun m there => ?_) member
  obtain ⟨depth, -, rfl⟩ := List.mem_map.mp there
  exact Nat.min_le_left ..

theorem mem_foldl_set {found : List (Nat × Nat)} {kept : Array Nat} (small : ∀ f ∈ found, f.2 ≤ limit)
    (bounded : ∀ n ∈ kept.toList, n ≤ limit)
    (member : n ∈ (found.foldl (fun kept f => kept.set! f.1 f.2) kept).toList) : n ≤ limit := by
  induction found generalizing kept with
  | nil => exact bounded n member
  | cons f found ih =>
    refine ih (fun g there => small g (List.mem_cons_of_mem _ there)) (fun n there => ?_) member
    simp only [Array.set!_eq_setIfInBounds, Array.toList_setIfInBounds] at there
    exact (List.mem_or_eq_of_mem_set there).elim (bounded n)
      fun same => same ▸ small f List.mem_cons_self

/-- No word is longer than it may be. -/
theorem ofCounts_le {counts : List Nat} (member : n ∈ ofCounts limit counts) : n ≤ limit := by
  refine mem_foldl_set (fun f there => ?_) (fun m there => ?_) member
  · exact limited_le (List.of_mem_zip there).2
  · rw [Array.toList_replicate] at there
    exact (List.eq_of_mem_replicate there) ▸ Nat.zero_le limit

end WordLength

namespace Run

/-- A run that its bits can express. -/
def Fits : Run → Prop
  | one length => length < 16
  | again count => 3 ≤ count ∧ count ≤ 6
  | zeros count => 3 ≤ count ∧ count ≤ 138

theorem fits_ofGroup {g : Nat × Nat} (small : g.1 < 16) {r : Run} (member : r ∈ ofGroup g) :
    r.Fits := by
  obtain ⟨length, count⟩ := g
  cases length with
  | zero =>
    rcases List.mem_append.mp member with there | there
    · cases List.eq_of_mem_replicate there
      exact ⟨by decide, by decide⟩
    · split at there
      · cases List.eq_of_mem_replicate there
        exact small
      · cases List.mem_singleton.mp there
        exact ⟨by omega, by omega⟩
  | succ length =>
    rcases List.mem_cons.mp member with rfl | later
    · exact small
    · rcases List.mem_append.mp later with there | there
      · cases List.eq_of_mem_replicate there
        exact ⟨by decide, by decide⟩
      · split at there
        · cases List.eq_of_mem_replicate there
          exact small
        · cases List.mem_singleton.mp there
          exact ⟨by omega, by omega⟩

theorem mem_of_mem_groups {lengths : List Nat} {g : Nat × Nat} (member : g ∈ groups lengths) :
    g.1 ∈ lengths := by
  have there : g.1 ∈ (groups lengths).flatMap fun g => List.replicate g.2 g.1 :=
    List.mem_flatMap.mpr ⟨g, member,
      List.mem_replicate.mpr ⟨Nat.ne_of_gt (groups_pos member), rfl⟩⟩
  rwa [flatMap_groups] at there

theorem fits_ofLengths {lengths : List Nat} (small : ∀ n ∈ lengths, n < 16) {r : Run}
    (member : r ∈ ofLengths lengths) : r.Fits := by
  obtain ⟨g, there, within⟩ := List.mem_flatMap.mp member
  exact fits_ofGroup (small _ (mem_of_mem_groups there)) within

/-- A run is known by its symbol and the bits that follow. -/
theorem ofSymbol?_symbol {r : Run} (fits : r.Fits) (rest : Bits) :
    ofSymbol? r.symbol (Bits.ofNat r.extra.1 r.extra.2 ++ rest) = some (r, rest) := by
  cases r with
  | one length => exact if_pos fits
  | again count =>
    obtain ⟨least, most⟩ := fits
    have small : count - 3 < Nat.pow 2 2 := by simp only [Nat.pow_eq]; omega
    simp only [ofSymbol?, symbol, extra, Bits.take?_ofNat small, Option.map_some,
      Nat.add_sub_cancel' least]
    rfl
  | zeros count =>
    obtain ⟨least, most⟩ := fits
    simp only [symbol, extra]
    split
    · have small : count - 3 < Nat.pow 2 3 := by simp only [Nat.pow_eq]; omega
      simp only [ofSymbol?, Bits.take?_ofNat small, Option.map_some, Nat.add_sub_cancel' least]
      rfl
    · next many =>
      have small : count - 11 < Nat.pow 2 7 := by simp only [Nat.pow_eq]; omega
      simp only [ofSymbol?, Bits.take?_ofNat small, Option.map_some]
      rw [Nat.add_sub_cancel' (by omega)]
      rfl

/-- Every run stands for something. -/
theorem length_lt_of_extend? {r : Run} (fits : r.Fits) {found next : List Nat}
    (gives : r.extend? found = some next) : found.length < next.length := by
  cases r with
  | one length =>
    cases gives
    exact Nat.lt_succ_self _
  | again count =>
    obtain ⟨length, -, rfl⟩ := Option.map_eq_some_iff.mp gives
    rw [List.length_append, List.length_replicate]
    exact Nat.lt_add_of_pos_left (Nat.lt_of_lt_of_le (by decide) fits.1)
  | zeros count =>
    cases gives
    rw [List.length_append, List.length_replicate]
    exact Nat.lt_add_of_pos_left (Nat.lt_of_lt_of_le (by decide) fits.1)

theorem length_le_of_extendAll? {runs : List Run} (fits : ∀ r ∈ runs, r.Fits)
    {found final : List Nat} (gives : extendAll? found runs = some final) :
    found.length ≤ final.length := by
  induction runs generalizing found with
  | nil => cases gives; exact Nat.le_refl _
  | cons r runs ih =>
    obtain ⟨next, now, later⟩ := Option.bind_eq_some_iff.mp gives
    exact Nat.le_trans (Nat.le_of_lt (length_lt_of_extend? (fits r List.mem_cons_self) now))
      (ih (fun s there => fits s (List.mem_cons_of_mem r there)) later)

end Run

variable {words : Words} {code : Code}

theorem lengths?_runBits {runs : List Run} (fits : ∀ r ∈ runs, r.Fits)
    (reads : ∀ r ∈ runs, words.Reads code r.symbol) {found final : List Nat}
    (gives : Run.extendAll? found runs = some final) {fuel : Nat} (enough : runs.length < fuel)
    (rest : Bits) : Inflate.lengths? code final.length fuel found (runBits words runs ++ rest) =
      some (final.reverse, rest) := by
  induction runs generalizing found fuel with
  | nil =>
    obtain ⟨fuel, rfl⟩ := Nat.exists_eq_succ_of_ne_zero (Nat.ne_of_gt enough)
    cases gives
    rw [Inflate.lengths?, if_neg (Nat.lt_irrefl _), if_pos rfl]
    rfl
  | cons r runs ih =>
    obtain ⟨fuel, rfl⟩ := Nat.exists_eq_succ_of_ne_zero (Nat.ne_of_gt (Nat.zero_lt_of_lt enough))
    obtain ⟨next, now, later⟩ := Option.bind_eq_some_iff.mp gives
    have fit := fits r List.mem_cons_self
    have grows := Run.length_lt_of_extend? fit now
    have most := Run.length_le_of_extendAll? (fun s there => fits s (List.mem_cons_of_mem r there))
      later
    have short : found.length < final.length := Nat.lt_of_lt_of_le grows most
    rw [Inflate.lengths?, if_neg (Nat.lt_asymm short), if_neg (Nat.ne_of_lt short), runBits,
      List.flatMap_cons, List.append_assoc, List.append_assoc, (reads r List.mem_cons_self).2]
    simp only [Run.ofSymbol?_symbol fit, now]
    exact ih (fun s there => fits s (List.mem_cons_of_mem r there))
      (fun s there => reads s (List.mem_cons_of_mem r there)) later (Nat.lt_of_succ_lt_succ enough)

theorem length_le_runBits {runs : List Run} (reads : ∀ r ∈ runs, words.Reads code r.symbol) :
    runs.length ≤ (runBits words runs).length := by
  induction runs with
  | nil => exact Nat.zero_le _
  | cons r runs ih =>
    have less := ih fun s there => reads s (List.mem_cons_of_mem r there)
    have pos := List.length_pos_iff.mpr (reads r List.mem_cons_self).1
    rw [runBits] at less ⊢
    rw [List.flatMap_cons, List.length_append, List.length_append, List.length_cons]
    omega

theorem trimmed_eq (least : Nat) (numbers : List Nat) : ∃ count, least ≤ count ∧
    trimmed least numbers = numbers.take count ∧ ∀ n ∈ numbers.drop count, n = 0 := by
  refine ⟨_, Nat.le_max_left .., rfl, fun n member => ?_⟩
  have later := List.drop_subset_drop_left numbers (Nat.le_max_right least _) member
  obtain ⟨front, split⟩ : ∃ front, front ++ (numbers.reverse.takeWhile (· = 0)).reverse = numbers := by
    refine ⟨(numbers.reverse.dropWhile (· = 0)).reverse, ?_⟩
    rw [← List.reverse_append, List.takeWhile_append_dropWhile, List.reverse_reverse]
  have place : numbers.length - (numbers.reverse.takeWhile (· = 0)).length = front.length := by
    have whole := congrArg List.length split
    rw [List.length_append, List.length_reverse] at whole
    omega
  rw [place] at later
  have dropped : numbers.drop front.length = (numbers.reverse.takeWhile (· = 0)).reverse := by
    conv_lhs => rw [← split]
    exact List.drop_left
  rw [dropped, List.mem_reverse] at later
  have zero := List.mem_takeWhile_imp later
  exact of_decide_eq_true zero

theorem length_trimmed {least : Nat} {numbers : List Nat} (many : least ≤ numbers.length) :
    least ≤ (trimmed least numbers).length ∧ (trimmed least numbers).length ≤ numbers.length := by
  obtain ⟨count, more, same, -⟩ := trimmed_eq least numbers
  rw [same, List.length_take]
  omega

theorem mem_of_mem_trimmed {least n : Nat} {numbers : List Nat}
    (member : n ∈ trimmed least numbers) : n ∈ numbers :=
  List.mem_of_mem_take member

/-- Lengths given in some order, as many of them as are needed, are found again. -/
theorem lookup_zip_trimmed {order : List Nat} {place : Nat} (member : place ∈ order)
    (least : Nat) (f : Nat → Nat) :
    ((order.zip (trimmed least (order.map f))).lookup place).getD 0 = f place := by
  obtain ⟨count, -, same, zeros⟩ := trimmed_eq least (order.map f)
  rw [same, ← List.map_take, ← List.map_drop] at *
  have found : ∀ (order : List Nat) (count : Nat),
      ((order.zip ((order.take count).map f)).lookup place) =
        if place ∈ order.take count then some (f place) else none := by
    intro order
    induction order with
    | nil => intro count; cases count <;> rfl
    | cons other order ih =>
      intro count
      cases count with
      | zero => rfl
      | succ count =>
        rw [List.take_succ_cons, List.map_cons, List.zip_cons_cons, List.lookup_cons, ih]
        by_cases same : place = other
        · subst same
          simp
        · have other : (place == other) = false := beq_false_of_ne same
          simp [same, other]
  rw [found]
  split
  · rfl
  · next absent =>
    have dropped : place ∈ order.drop count := by
      rw [← List.take_append_drop count order] at member
      exact (List.mem_append.mp member).resolve_left absent
    exact (zeros _ (List.mem_map_of_mem dropped)).symm

theorem placed_trimmed {lengths : List Nat} (all : lengths.length = Run.symbolCount) :
    Inflate.placed (trimmed 4 (lengthOrder.map fun symbol => lengths.getD symbol 0)) = lengths := by
  refine List.ext_getElem ?_ fun place inside there => ?_
  · rw [Inflate.placed, List.length_map, List.length_range, all]
    rfl
  · have member : ∀ place < 19, place ∈ lengthOrder := by decide
    rw [all] at there
    rw [← List.getD_eq_getElem lengths 0 (all ▸ there)]
    simp only [Inflate.placed, List.getElem_map, List.getElem_range]
    exact lookup_zip_trimmed (member place there) 4 _

theorem threes?_flatMap {numbers : List Nat} (small : ∀ n ∈ numbers, n ≤ 7) (rest : Bits) :
    Inflate.threes? numbers.length (numbers.flatMap (Bits.ofNat 3) ++ rest) =
      some (numbers, rest) := by
  induction numbers with
  | nil => rfl
  | cons n numbers ih =>
    have fits : n < Nat.pow 2 3 := Nat.lt_succ_of_le (small n List.mem_cons_self)
    rw [List.length_cons, Inflate.threes?, List.flatMap_cons, List.append_assoc]
    simp only [Bits.take?_ofNat fits, ih fun m there => small m (List.mem_cons_of_mem n there),
      Option.map_some]

theorem length_tally (count : Nat) (symbols : List Nat) : (tally count symbols).length = count := by
  have kept : ∀ counts : Array Nat, (symbols.foldl
      (fun counts symbol => counts.modify symbol (· + 1)) counts).size = counts.size := by
    induction symbols with
    | nil => exact fun _ => rfl
    | cons symbol symbols ih => exact fun counts => (ih _).trans Array.size_modify
  rw [tally, Array.length_toList, kept, Array.size_replicate]

/-- The runs of some lengths, written in a code that has words for them, are read back. -/
theorem lengths?_ofLengths {given lengths : List Nat} {code : Code}
    (gives : Code.ofLengths? given = some code) (small : ∀ n ∈ lengths, n < 16)
    (covers : (wordsOf given).cover ((Run.ofLengths lengths).map Run.symbol) = true) (rest : Bits) :
    let bits := runBits (wordsOf given) (Run.ofLengths lengths) ++ rest
    Inflate.lengths? code lengths.length (bits.length + 1) [] bits = some (lengths, rest) := by
  have reads : ∀ r ∈ Run.ofLengths lengths, (wordsOf given).Reads code r.symbol := fun r member =>
    reads_of_cover gives covers (List.mem_map_of_mem member)
  have enough : (Run.ofLengths lengths).length <
      (runBits (wordsOf given) (Run.ofLengths lengths) ++ rest).length + 1 := by
    have most := length_le_runBits reads
    rw [List.length_append]
    omega
  have read := lengths?_runBits (fun r member => Run.fits_ofLengths small member) reads
    (Run.extendAll?_ofLengths lengths) enough rest
  rwa [List.length_reverse, List.reverse_reverse] at read

theorem exists_code_of_cover {lengths symbols : List Nat}
    (covers : (wordsOf lengths).cover symbols = true) (some : symbols ≠ []) :
    ∃ code, Code.ofLengths? lengths = .some code := by
  obtain ⟨symbol, member⟩ := List.exists_mem_of_ne_nil symbols some
  have worded := List.all_eq_true.mp covers symbol member
  simp only [Bool.not_eq_true', List.isEmpty_eq_false_iff] at worded
  obtain ⟨code, gives, -⟩ := reads_of_ne_nil worded
  exact ⟨code, gives⟩

theorem ofLengths_ne_nil {lengths : List Nat} (some : lengths ≠ []) : Run.ofLengths lengths ≠ [] := by
  intro none
  have back := Run.extendAll?_ofLengths lengths
  rw [none, Run.extendAll?] at back
  exact some (List.reverse_eq_nil_iff.mp (Option.some.inj back).symm)

/-- The word lengths of the code for word lengths, in the order in which they are given. -/
theorem given_bounds {lengths : List Nat} (small : ∀ n ∈ lengths, n ≤ 7) :
    let given := trimmed 4 (lengthOrder.map fun symbol => lengths.getD symbol 0)
    (4 ≤ given.length ∧ given.length ≤ 19) ∧ ∀ n ∈ given, n ≤ 7 := by
  refine ⟨length_trimmed (Nat.le_of_ble_eq_true rfl), fun n member => ?_⟩
  obtain ⟨symbol, -, rfl⟩ := List.mem_map.mp (mem_of_mem_trimmed member)
  rw [List.getD_eq_getElem?_getD]
  cases there : lengths[symbol]? with
  | none => exact Nat.zero_le 7
  | some length => exact small length (List.mem_of_getElem? there)

/-- The two codes of a description are read back. -/
theorem codes?_description {literals distances : List Nat} {first second : Code}
    {description : Bits} (written : description? literals distances = some description)
    (gives : Code.ofLengths? literals = some first) (other : Code.ofLengths? distances = some second)
    (small : ∀ n ∈ literals ++ distances, n < 16)
    (least : endOfBlock + 1 ≤ literals.length) (most : literals.length ≤ literalCount)
    (pos : 1 ≤ distances.length) (few : distances.length ≤ distanceCount) (rest : Bits) :
    Inflate.codes? (description ++ rest) = some (first, second, rest) := by
  simp only [description?] at written
  split at written
  · next covers =>
    cases written
    have bounded : ∀ n ∈ WordLength.ofCounts maxRunWord (tally Run.symbolCount
        ((Run.ofLengths (literals ++ distances)).map Run.symbol)), n ≤ 7 :=
      fun n member => WordLength.ofCounts_le member
    have all : (WordLength.ofCounts maxRunWord (tally Run.symbolCount
        ((Run.ofLengths (literals ++ distances)).map Run.symbol))).length = Run.symbolCount := by
      rw [WordLength.length_ofCounts, length_tally]
    generalize WordLength.ofCounts maxRunWord _ = lengths at *
    have symbols : (Run.ofLengths (literals ++ distances)).map Run.symbol ≠ [] := by
      refine mt List.map_eq_nil_iff.mp (ofLengths_ne_nil (List.ne_nil_of_length_pos ?_))
      rw [List.length_append]
      omega
    obtain ⟨code, known⟩ := exists_code_of_cover covers symbols
    obtain ⟨⟨four, nineteen⟩, sevens⟩ := given_bounds bounded
    have placed := placed_trimmed all
    generalize trimmed 4 _ = given at *
    have lengthsRead := lengths?_ofLengths known small covers rest
    have five : literals.length - (endOfBlock + 1) < Nat.pow 2 5 :=
      Nat.lt_of_le_of_lt (Nat.sub_le_sub_right most _) (by decide)
    have five' : distances.length - 1 < Nat.pow 2 5 :=
      Nat.lt_of_le_of_lt (Nat.sub_le_sub_right few _) (by decide)
    have four' : given.length - 4 < Nat.pow 2 4 :=
      Nat.lt_of_le_of_lt (Nat.sub_le_sub_right nineteen _) (by decide)
    rw [List.length_append] at lengthsRead
    simp only [List.append_assoc, Inflate.codes?, Bits.take?_ofNat five, Bits.take?_ofNat five',
      Bits.take?_ofNat four', Option.bind_eq_bind, Option.bind_some, Nat.sub_add_cancel four,
      Nat.sub_add_cancel least, Nat.sub_add_cancel pos, threes?_flatMap sevens, placed, known,
      lengthsRead, List.take_left, List.drop_left, gives, other, Option.pure_def]
  · cases written

end Spool.Flate
