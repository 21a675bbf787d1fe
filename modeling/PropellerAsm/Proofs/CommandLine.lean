import Mathlib.Order.Bounds.Defs
import PropellerAsm.CommandLine
import PropellerAsm.Proofs.Assembly.Reachable
import PropellerAsm.Proofs.Text.Ascii

/-!
# The file of a run

The file is put together from longs that are read back from the image, while the binary of a pass is
a slice of its bytes.  They agree because nothing is ever written behind the end of the image: the
last long is filled up with bytes that are still zero, and it lies inside the memory as a whole.
-/
namespace PropellerAsm

/-! ## Longs read back -/

namespace Bytes

theorem littleEndian_ofLittleEndian (bytes : List UInt8) :
    littleEndian bytes.length (ofLittleEndian bytes) = bytes := by
  induction bytes with
  | nil => rfl
  | cons b bytes ih =>
    have hb := b.toNat_lt
    have hhead : UInt8.ofNat (b.toNat + 256 * ofLittleEndian bytes) = b := by
      apply UInt8.toNat.inj
      rw [UInt8.toNat_ofNat']
      omega
    have htail : (b.toNat + 256 * ofLittleEndian bytes) / 256 = ofLittleEndian bytes := by omega
    rw [List.length_cons, ofLittleEndian, littleEndian, hhead, htail, ih]

end Bytes

namespace Image

/-- A long inside the memory, written out again, is the bytes it was read from. -/
theorem littleEndian_readLong (image : Image) {addr : Nat} (h : addr + 4 ≤ size) :
    Bytes.littleEndian 4 (image.readLong addr).toNat = image.slice addr 4 := by
  have hback := Bytes.littleEndian_ofLittleEndian (image.slice addr 4)
  rw [length_slice] at hback
  rw [toNat_readLong, readNat, if_pos h, hback]

end Image

/-! ## Behind the end of the image -/

namespace Assembly

variable {a : Assembly}

theorem Replayed.imageEnd_le (h : Replayed a) : a.imageEnd ≤ Image.size := by
  rw [h.extent]
  exact Write.extent_le _ (Nat.zero_le _)

/-- Nothing is stored at the end of the image and behind it. -/
theorem Replayed.read_eq_zero (h : Replayed a) {addr : Nat} (haddr : a.imageEnd ≤ addr) :
    a.image.read addr = 0 := by
  rw [h.extent, Write.extent_le_iff] at haddr
  rw [h.memory, Write.replay_outside]
  · rfl
  · intro w hw hfits
    exact .inr (haddr.2 w hw hfits)

theorem Replayed.slice_eq_replicate (h : Replayed a) (count : Nat) :
    a.image.slice a.imageEnd count = List.replicate count 0 := by
  rw [List.eq_replicate_iff]
  refine ⟨a.image.length_slice _ _, ?_⟩
  intro b hb
  obtain ⟨addr, haddr, rfl⟩ := List.mem_map.mp hb
  exact h.read_eq_zero (List.mem_range'_1.mp haddr).1

/-- The memory ends with a whole long, so the last long of the image lies inside it. -/
theorem Replayed.long_le (h : Replayed a) {i : Nat} (hi : i < (a.imageEnd + 3) / 4) :
    4 * i + 4 ≤ Image.size := by
  have hend := h.imageEnd_le
  have hsize : Image.size = 4 * 0x40000 := rfl
  omega

end Assembly

/-! ## The file -/

namespace CommandLine

/-- How many bytes fill up the last long. -/
def filler (length : Nat) : Nat := 4 * ((length + 3) / 4) - length

theorem filler_isLeast (length : Nat) : IsLeast {n | 4 ∣ length + n} (filler length) := by
  unfold filler
  constructor
  · refine ⟨(length + 3) / 4, ?_⟩
    omega
  · rintro n ⟨longs, hn⟩
    omega

theorem imageFile_eq {a : Assembly} (h : a.Replayed) :
    imageFile a = a.binary ++ List.replicate (filler a.imageEnd) 0 := by
  have hlongs : a.image.slice 0 (4 * (List.range ((a.imageEnd + 3) / 4)).length) =
      imageFile a := by
    apply Image.slice_flatMap
    intro i item hitem
    obtain ⟨hi, rfl⟩ := List.getElem?_eq_some_iff.mp hitem
    rw [List.length_range] at hi
    rw [List.getElem_range, Image.littleEndian_readLong _ (h.long_le hi), Nat.zero_add]
  have hparts : 4 * ((a.imageEnd + 3) / 4) = a.imageEnd + filler a.imageEnd := by
    unfold filler
    omega
  rw [← hlongs, List.length_range, hparts, Image.slice_append, Nat.zero_add,
    h.slice_eq_replicate, Assembly.binary]

end CommandLine

theorem Utf8.decode?_encode (source : String) : decode? (encode source) = some source := by
  rw [decode?, encode_eq_bytes, Array.toArray_toList]
  exact dif_pos source.isValidUTF8

namespace CommandLine

/-- The file of a run.  A pass over the source without faults exits with 0 and writes the binary,
followed by the fewest zeros that make whole longs of it; a pass with any fault exits with 1 and
writes nothing.  Behind the end of the image there are only zeros, the end lies inside the memory,
and so does every long that is read. -/
theorem file_eq_padded_binary (input : String) (options : Arguments) (source : String) :
    let a := ({} : Assembly).assemble source
    let r := run input options (.ok (Utf8.encode source))
    (a.diagnostics = [] → r.exit = 0 ∧
      ∃ count, IsLeast {n | 4 ∣ a.binary.length + n} count ∧
        r.file = some (options.output.getD (defaultOutput input),
          a.binary ++ List.replicate count 0)) ∧
    (a.diagnostics ≠ [] → r.exit = 1 ∧ r.file = none) ∧
    (∀ addr, a.imageEnd ≤ addr → a.image.read addr = 0) ∧
    a.imageEnd ≤ Image.size ∧
    ∀ i < (a.imageEnd + 3) / 4, 4 * i + 4 ≤ Image.size := by
  intro a r
  have hpass : ({} : Assembly).assembleFile (.ok (Utf8.encode source)) = a := by
    rw [Assembly.assembleFile, Utf8.decode?_encode]
  have hrun : r = report input options a := congrArg (report input options) hpass
  have h : a.Replayed := by
    rw [← hpass]
    exact (Assembly.Reachable.new.assembleFile _).settled.replayed
  refine ⟨?_, ?_, fun _ => h.read_eq_zero, h.imageEnd_le, fun _ => h.long_le⟩
  · intro hnone
    have hcount : ¬ 0 < a.faultCount := by
      rw [Assembly.faultCount, hnone]
      exact Nat.lt_irrefl 0
    rw [hrun, report, if_neg hcount, imageFile_eq h]
    refine ⟨rfl, filler a.imageEnd, ?_, rfl⟩
    rw [Assembly.binary, Image.length_slice]
    exact filler_isLeast a.imageEnd
  · intro hsome
    have hcount : 0 < a.faultCount := List.length_pos_iff.mpr hsome
    rw [hrun, report, if_pos hcount]
    exact ⟨rfl, rfl⟩

end CommandLine

end PropellerAsm
