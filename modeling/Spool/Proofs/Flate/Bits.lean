import Mathlib.Algebra.Ring.Nat
import Spool.Flate.Block

/-!
Bits packed into bytes and taken out again. What is packed comes back, with the last byte filled up.
-/

namespace Spool.Flate

theorem toList_loop (bytes : ByteArray) (i : Nat) (done : List UInt8) :
    ByteArray.toList.loop bytes i done = done.reverse ++ bytes.data.toList.drop i := by
  induction i, done using ByteArray.toList.loop.induct bytes with
  | case1 i done inside ih =>
    have there : i < bytes.data.toList.length := inside
    have byte : bytes.get! i = bytes.data.toList[i] := getElem!_pos bytes.data i inside
    rw [ByteArray.toList.loop, if_pos inside, ih, List.drop_eq_getElem_cons there, byte,
      List.reverse_cons, List.append_assoc, List.singleton_append]
  | case2 i done outside =>
    have past : bytes.data.toList.length ≤ i := Nat.not_lt.mp outside
    rw [ByteArray.toList.loop, if_neg outside, List.drop_eq_nil_of_le past, List.append_nil]

theorem toList_eq (bytes : ByteArray) : bytes.toList = bytes.data.toList := by
  rw [ByteArray.toList, toList_loop, List.reverse_nil, List.nil_append, List.drop_zero]

@[simp] theorem toList_push (bytes : ByteArray) (byte : UInt8) :
    (bytes.push byte).toList = bytes.toList ++ [byte] := by
  rw [toList_eq, toList_eq, ByteArray.data_push, Array.toList_push]

@[simp] theorem toList_append (a b : ByteArray) : (a ++ b).toList = a.toList ++ b.toList := by
  rw [toList_eq, toList_eq, toList_eq, ByteArray.toList_data_append]

@[simp] theorem length_toList (bytes : ByteArray) : bytes.toList.length = bytes.size := by
  rw [toList_eq, Array.length_toList, ByteArray.size_data]

theorem toList_inj {a b : ByteArray} : a.toList = b.toList ↔ a = b := by
  rw [toList_eq, toList_eq, Array.toList_inj, ByteArray.ext_iff]

theorem toList_foldl_push (bytes : ByteArray) (more : List UInt8) :
    (more.foldl ByteArray.push bytes).toList = bytes.toList ++ more := by
  induction more generalizing bytes with
  | nil => rw [List.foldl_nil, List.append_nil]
  | cons byte more ih => rw [List.foldl_cons, ih, toList_push, List.append_assoc, List.singleton_append]

namespace Bits

variable {bits rest : Bits}

theorem toNat_lt (bits : Bits) : toNat bits < 2 ^ bits.length := by
  induction bits with
  | nil => exact Nat.one_pos
  | cons b bits ih =>
    have bit : b.toNat ≤ 1 := Bool.toNat_le b
    rw [toNat, List.length_cons, Nat.pow_succ]
    omega

theorem ofNat_zero (count : Nat) : ofNat count 0 = List.replicate count false := by
  induction count with
  | zero => rfl
  | succ count ih => rw [ofNat, Nat.zero_div, ih, List.replicate_succ]; rfl

/-- Bits that are read as a number are written again, and as many zeros as there is room for. -/
theorem ofNat_toNat (bits : Bits) (more : Nat) :
    ofNat (bits.length + more) (toNat bits) = bits ++ List.replicate more false := by
  induction bits with
  | nil => rw [toNat, List.length_nil, Nat.zero_add, ofNat_zero, List.nil_append]
  | cons b bits ih =>
    have low : ((b.toNat + 2 * toNat bits) % 2 == 1) = b := by
      cases b <;> simp [Nat.add_mod]
    have high : (b.toNat + 2 * toNat bits) / 2 = toNat bits := by
      have bit : b.toNat ≤ 1 := Bool.toNat_le b
      omega
    rw [toNat, List.length_cons, Nat.add_right_comm, ofNat, low, high, ih, List.cons_append]

theorem codeWord_succ (count n : Nat) :
    codeWord (count + 1) n = (n / 2 ^ count % 2 == 1) :: codeWord count n := by
  have last : ofNat (count + 1) n = ofNat count n ++ [n / 2 ^ count % 2 == 1] := by
    induction count generalizing n with
    | zero => simp only [ofNat, Nat.pow_zero, Nat.div_one, List.nil_append]
    | succ count ih =>
      rw [ofNat, ih, Nat.div_div_eq_div_mul, ← Nat.pow_succ', ofNat, List.cons_append]
  rw [codeWord, codeWord, last, List.reverse_append, List.reverse_singleton, List.singleton_append]

@[simp] theorem length_codeWord (count n : Nat) : (codeWord count n).length = count := by
  rw [codeWord, List.length_reverse, length_ofNat]

@[simp] theorem ofBytes_nil : ofBytes [] = [] := rfl

@[simp] theorem ofBytes_cons (byte : UInt8) (bytes : List UInt8) :
    ofBytes (byte :: bytes) = ofNat 8 byte.toNat ++ ofBytes bytes := List.flatMap_cons

@[simp] theorem ofBytes_append (a b : List UInt8) : ofBytes (a ++ b) = ofBytes a ++ ofBytes b :=
  List.flatMap_append

@[simp] theorem length_ofBytes (bytes : List UInt8) : (ofBytes bytes).length = 8 * bytes.length := by
  induction bytes with
  | nil => rfl
  | cons byte bytes ih =>
    rw [ofBytes_cons, List.length_append, length_ofNat, ih, List.length_cons]
    omega

theorem ofNat_byte (few : bits.length ≤ 8) :
    ofNat 8 (UInt8.ofNat (toNat bits)).toNat = bits ++ List.replicate (8 - bits.length) false := by
  have small : toNat bits < 256 :=
    Nat.lt_of_lt_of_le (toNat_lt bits) (Nat.pow_le_pow_right Nat.two_pos few)
  have eight : bits.length + (8 - bits.length) = 8 := Nat.add_sub_cancel' few
  rw [UInt8.toNat_ofNat_of_lt' small, ← ofNat_toNat bits (8 - bits.length), eight]

/-- Packed bits are bytes behind those that were there, filled up to the end of the last one. -/
theorem toList_pack (out : ByteArray) (bits : Bits) : ∃ more,
    (pack out bits).toList = out.toList ++ more ∧ ofBytes more = bits ++ alignment bits.length := by
  induction out, bits using pack.induct with
  | case1 out a b c d e f g h rest ih =>
    obtain ⟨more, same, read⟩ := ih
    have whole : alignment (rest.length + 8) = alignment rest.length := by
      rw [alignment, alignment, Nat.add_mod_right]
    have eight : [a, b, c, d, e, f, g, h].length ≤ 8 := Nat.le_refl 8
    refine ⟨UInt8.ofNat (toNat [a, b, c, d, e, f, g, h]) :: more, ?_, ?_⟩
    · rw [pack, same, toList_push, List.append_assoc, List.singleton_append]
    · rw [ofBytes_cons, ofNat_byte eight, read]
      simp only [List.length_cons, whole, List.length_nil, Nat.sub_self, List.replicate_zero,
        List.append_nil, List.cons_append, List.nil_append]
  | case2 out => exact ⟨[], by simp [pack], rfl⟩
  | case3 out rest short some =>
    have few : rest.length < 8 := by
      match rest, short with
      | [_], _ | [_, _], _ | [_, _, _], _ | [_, _, _, _], _ | [_, _, _, _, _], _
      | [_, _, _, _, _, _], _ | [_, _, _, _, _, _, _], _ => simp
      | a :: b :: c :: d :: e :: f :: g :: h :: rest, short => exact (short _ _ _ _ _ _ _ _ _ rfl).elim
    have pos : 0 < rest.length := List.length_pos_iff.mpr some
    refine ⟨[UInt8.ofNat (toNat rest)], ?_, ?_⟩
    · rw [pack, toList_push]
      · exact short
      · exact some
    · rw [ofBytes_cons, ofNat_byte (Nat.le_of_lt few), ofBytes_nil, List.append_nil, alignment]
      congr 2
      omega

end Bits

end Spool.Flate
