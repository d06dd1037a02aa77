import Spool.Flate.Stream
import Spool.Proofs.Flate.Matching

/-!
Compressed streams give back the content that they were made from, whatever it is.
-/

namespace Spool.Flate.Stream

theorem toList_compress (content : ByteArray) : ∃ body,
    (compress content).toList = header ++ (body ++ checksumBytes (adler32 content)) ∧
      Bits.ofBytes body = blocks content ++ alignment (blocks content).length := by
  obtain ⟨body, same, read⟩ := Bits.toList_pack (header.foldl ByteArray.push .empty) (blocks content)
  refine ⟨body, ?_, read⟩
  simp only [compress, toList_foldl_push, same, ByteArray.toList_empty, List.nil_append,
    List.append_assoc]

/-- What was compressed is read back. -/
theorem decompress?_compress (content : ByteArray) :
    decompress? (compress content) = some content := by
  obtain ⟨body, stream, bits⟩ := toList_compress content
  have checksum : (Bits.ofBytes (checksumBytes (adler32 content))).length % 8 = 0 := by
    rw [Bits.length_ofBytes, Nat.mul_mod_right]
  have whole : ((blocks content).length + (alignment (blocks content).length ++
      Bits.ofBytes (checksumBytes (adler32 content))).length) % 8 = 0 := by
    rw [List.length_append, length_alignment]
    omega
  have accepted : accepts 0x78 0x9c = true := by decide
  rw [decompress?, stream]
  simp only [header, List.cons_append, List.nil_append, accepted, if_true, Bits.ofBytes_append, bits,
    List.append_assoc, inflate?_blocks (Segment.parts_cut content) whole, align_alignment checksum]

end Spool.Flate.Stream
