import Spool.Digest.Sha256
import Spool.ObjectKey

/-!
Digests and the keys that are made from them. A digest is 64 lowercase hexadecimal digits. From a
key it can be read back, and so can the suffix and the directory but for its last slashes; hence no
two objects have the same key.
-/

namespace Spool

/-- A text has as many bytes as characters, if each takes one. -/
theorem Text.utf8ByteSize_ofList {cs : List Char} (single : ∀ c ∈ cs, c.utf8Size = 1) :
    (String.ofList cs).utf8ByteSize = cs.length := by
  induction cs with
  | nil => rfl
  | cons c cs ih =>
    have rest := ih fun d member => single d (List.mem_cons_of_mem c member)
    rw [← List.singleton_append, String.ofList_append, String.utf8ByteSize_append, rest,
      ← String.singleton_eq_ofList, String.utf8ByteSize_singleton, single c List.mem_cons_self,
      List.length_append, List.length_singleton]

namespace Hex

theorem digit_mem {n : UInt8} (small : n.toNat < 16) : digit n ∈ "0123456789abcdef".toList := by
  have all : ∀ k : Fin 16, digit (UInt8.ofNat k.val) ∈ "0123456789abcdef".toList := by decide
  have here := all ⟨n.toNat, small⟩
  rwa [UInt8.ofNat_toNat] at here

theorem mem_encode {bytes : List UInt8} {c : Char} (member : c ∈ encode bytes) :
    c ∈ "0123456789abcdef".toList := by
  obtain ⟨b, _, digits⟩ := List.mem_flatMap.mp member
  have high : (b >>> 4).toNat < 16 := by
    have byte := b.toNat_lt
    rw [UInt8.toNat_shiftRight, Nat.shiftRight_eq_div_pow]
    show b.toNat / 2 ^ 4 < 16
    omega
  have low : (b &&& 15).toNat < 16 := by
    rw [UInt8.toNat_and]
    exact Nat.lt_succ_of_le Nat.and_le_right
  simp only [ofByte, List.mem_cons, List.not_mem_nil, or_false] at digits
  rcases digits with rfl | rfl
  · exact digit_mem high
  · exact digit_mem low

/-- Digits take one byte each. -/
theorem utf8ByteSize_digits {cs : List Char} (digits : ∀ c ∈ cs, c ∈ "0123456789abcdef".toList) :
    (String.ofList cs).utf8ByteSize = cs.length := by
  have single : ∀ d ∈ "0123456789abcdef".toList, d.utf8Size = 1 := by simp [Char.utf8Size]
  exact Text.utf8ByteSize_ofList fun c member => single c (digits c member)

end Hex

theorem Sha256.mem_hex {message : ByteArray} {c : Char} (member : c ∈ (hex message).toList) :
    c ∈ "0123456789abcdef".toList := by
  rw [hex, String.toList_ofList] at member
  exact Hex.mem_encode member

namespace ObjectKey

/-- The text of a digest: 64 hexadecimal digits, whatever their case. -/
structure IsDigest (hash : String) : Prop where
  length : hash.toList.length = 64
  digits : ∀ c ∈ hash.toList, c ∈ "0123456789abcdefABCDEF".toList

theorem isDigest_hex (message : ByteArray) : IsDigest (Sha256.hex message) := by
  have known : "0123456789abcdefABCDEF".toList = "0123456789abcdef".toList ++ "ABCDEF".toList := rfl
  refine ⟨Sha256.length_hex message, fun c member => ?_⟩
  rw [known]
  exact List.mem_append_left _ (Sha256.mem_hex member)

/-- What a key is made from. The last slashes of the directory do not matter. -/
structure Parts where
  dir : String
  hash : String
  suffix : String
  deriving DecidableEq, Repr

/-- Takes a key apart at its last two slashes. Of the last piece all but the first 62 characters
belong to the suffix. -/
def parts? (key : String) : Option Parts :=
  match (key.toList.splitOn '/').reverse with
  | last :: fan :: front => some {
      dir := String.ofList (['/'].intercalate front.reverse)
      hash := String.ofList (fan ++ last.take 62)
      suffix := String.ofList (last.drop 62) }
  | _ => none

/-- The pieces of a key: those of its directory, the fan-out directory and those of what follows. -/
theorem splitOn_render (dir : List Char) {fan : List Char} (apart : '/' ∉ fan)
    (rest suffix : List Char) : ∃ front,
      (render dir fan rest suffix).splitOn '/' = front ++ fan :: (rest ++ suffix).splitOn '/' ∧
        ['/'].intercalate front = Text.dropEndSlashes dir := by
  have object : (fan ++ '/' :: rest ++ suffix).splitOn '/' =
      fan :: (rest ++ suffix).splitOn '/' := by
    rw [List.append_assoc, List.cons_append, List.splitOn_append_cons_self,
      List.splitOn_eq_singleton apart, List.singleton_append]
  unfold render
  split
  · next none => exact ⟨[], object, none.symm⟩
  · refine ⟨(Text.dropEndSlashes dir).splitOn '/', ?_, List.intercalate_splitOn '/'⟩
    simp only [List.append_assoc, List.cons_append] at object ⊢
    rw [List.splitOn_append_cons_self, object]

namespace IsDigest

variable {hash hash' suffix suffix' : String} (digest : IsDigest hash)
include digest

theorem slash_not_mem : '/' ∉ hash.toList := fun member =>
  absurd (digest.digits '/' member) (by decide)

theorem utf8Size_eq_one {c : Char} (member : c ∈ hash.toList) : c.utf8Size = 1 := by
  have single : ∀ c ∈ "0123456789abcdefABCDEF".toList, c.utf8Size = 1 := by simp [Char.utf8Size]
  exact single c (digest.digits c member)

/-- No digest is cut inside of a character. -/
theorem ofDigest?_eq (dir suffix : String) :
    ofDigest? dir hash suffix = some (ofDigest dir hash suffix) :=
  ofDigest?_eq_ofDigest (fun _ => digest.utf8Size_eq_one) dir suffix

theorem slash_not_mem_fan : '/' ∉ hash.toList.take 2 := fun member =>
  digest.slash_not_mem (List.mem_of_mem_take member)

theorem parts?_ofDigest (dir : String) (free : '/' ∉ suffix.toList) :
    parts? (ofDigest dir hash suffix) =
      some ⟨String.ofList (Text.dropEndSlashes dir.toList), hash, suffix⟩ := by
  have name : '/' ∉ hash.toList.drop 2 ++ suffix.toList := by
    intro member
    rcases List.mem_append.mp member with inside | behind
    · exact digest.slash_not_mem (List.mem_of_mem_drop inside)
    · exact free behind
  have long : (hash.toList.drop 2).length = 62 := by rw [List.length_drop, digest.length]
  obtain ⟨front, pieces, text⟩ :=
    splitOn_render dir.toList digest.slash_not_mem_fan (hash.toList.drop 2) suffix.toList
  rw [List.splitOn_eq_singleton name] at pieces
  simp only [parts?, ofDigest, String.toList_ofList, pieces, List.reverse_append,
    List.reverse_cons, List.reverse_nil, List.nil_append, List.cons_append, List.reverse_reverse,
    text, List.take_left' long, List.drop_left' long, List.take_append_drop, String.ofList_toList]

end IsDigest

/-- Equal keys come of equal digests, equal suffixes and directories that differ in their last
slashes only. Every digest makes a key, and the key tells the digest. -/
theorem identifies_objects :
    (∀ content : ByteArray, (Sha256.hex content).toList.length = 64 ∧
      (∀ c ∈ (Sha256.hex content).toList, c ∈ "0123456789abcdef".toList) ∧
      ∀ dir suffix, (ofDigest? dir (Sha256.hex content) suffix).isSome) ∧
    ∀ dir dir' hash hash' suffix suffix' : String, IsDigest hash → IsDigest hash' →
      '/' ∉ suffix.toList → '/' ∉ suffix'.toList →
        (ofDigest? dir hash suffix = ofDigest? dir' hash' suffix' ↔ hash = hash' ∧
          suffix = suffix' ∧ Text.dropEndSlashes dir.toList = Text.dropEndSlashes dir'.toList) ∧
        (ofDigest? dir hash suffix).bind parts? =
          some ⟨String.ofList (Text.dropEndSlashes dir.toList), hash, suffix⟩ := by
  refine ⟨fun content => ⟨Sha256.length_hex content, fun c => Sha256.mem_hex, fun dir suffix => ?_⟩,
    fun dir dir' hash hash' suffix suffix' digest digest' free free' => ?_⟩
  · rw [(isDigest_hex content).ofDigest?_eq, Option.isSome_some]
  · rw [digest.ofDigest?_eq, digest'.ofDigest?_eq]
    have back := digest.parts?_ofDigest dir free
    refine ⟨⟨fun same => ?_, ?_⟩, back⟩
    · -- both keys are the same text, so that the same parts are read from them
      rw [Option.some.inj same, digest'.parts?_ofDigest dir' free'] at back
      injection Option.some.inj back with dirs hashes suffixes
      exact ⟨hashes.symm, suffixes.symm, (String.ofList_injective dirs).symm⟩
    · rintro ⟨rfl, rfl, dirs⟩
      simp only [ofDigest, render, dirs]

/-- A digest that begins with the name of the directory below. -/
def sample : String := String.ofList ('a' :: 'b' :: List.replicate 62 '0')

theorem toList_sample : sample.toList = 'a' :: 'b' :: List.replicate 62 '0' :=
  String.toList_ofList

theorem isDigest_sample : IsDigest sample where
  length := by rw [toList_sample, List.length_cons, List.length_cons, List.length_replicate]
  digits := by
    intro c member
    rw [toList_sample, List.mem_cons, List.mem_cons, List.mem_replicate] at member
    rcases member with rfl | rfl | ⟨-, rfl⟩ <;> decide

/-- A directory that could be a fan-out directory, and a suffix that could belong to the digest. -/
theorem identifies_objects_sample :
    ofDigest? "ab//" sample "00" = ofDigest? "ab" sample "00" ∧
      ofDigest? "ab" sample "00" ≠ ofDigest? "" sample "00" ∧
      ofDigest? "ab" sample "00" ≠ ofDigest? "ab" sample "0" ∧
      (ofDigest? "ab//" sample "00").bind parts? = some ⟨"ab", sample, "00"⟩ := by
  have keys := fun dir dir' suffix suffix' free free' =>
    identifies_objects.2 dir dir' sample sample suffix suffix' isDigest_sample isDigest_sample
      free free'
  have trimmed := keys "ab//" "ab" "00" "00" (by decide) (by decide)
  refine ⟨trimmed.1.mpr ⟨rfl, rfl, rfl⟩, fun same => ?_, fun same => ?_, trimmed.2⟩
  · have parts := (keys "ab" "" "00" "00" (by decide) (by decide)).1.mp same
    exact absurd parts.2.2 (by decide)
  · have parts := (keys "ab" "ab" "00" "0" (by decide) (by decide)).1.mp same
    exact absurd parts.2.1 (by decide)

end ObjectKey

end Spool
