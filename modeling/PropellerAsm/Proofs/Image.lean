import Mathlib.Algebra.Group.Nat.Defs
import PropellerAsm.Image

/-!
# Memory after writes

The image stands for a memory: a byte for every address, all zero at the start.  A write is a block
of bytes at an address.  Writes are replayed one after the other, so that a later one wins where
they overlap, and a write that reaches past the end of the memory is dropped as a whole.
-/
namespace PropellerAsm

/-- A byte for every address. -/
abbrev Memory := Nat → UInt8

/-- The memory before anything is written. -/
def Memory.zero : Memory := fun _ => 0

/-- A block of bytes at an address. -/
structure Write where
  addr : Nat
  bytes : List UInt8
deriving DecidableEq, Repr

namespace Write

/-- The address behind the last byte. -/
def stop (w : Write) : Nat := w.addr + w.bytes.length

/-- The block lies inside the memory. -/
def fits (w : Write) : Bool := w.stop ≤ Address.memorySize

/-- The memory with the block in place. -/
def apply (w : Write) (memory : Memory) : Memory := fun i =>
  if w.addr ≤ i then (w.bytes[i - w.addr]?).getD (memory i) else memory i

/-- The memory after the writes that fit, in order. -/
def replay (memory : Memory) (writes : List Write) : Memory :=
  (writes.filter fits).foldl (fun m w => w.apply m) memory

/-- The highest address behind a write that fits, and at least `start`. -/
def extent (start : Nat) (writes : List Write) : Nat :=
  ((writes.filter fits).map stop).foldl max start

/-! ## One write after the other -/

theorem replay_append (memory : Memory) (writes more : List Write) :
    replay memory (writes ++ more) = replay (replay memory writes) more := by
  rw [replay, List.filter_append, List.foldl_append, replay, replay]

theorem extent_append (start : Nat) (writes more : List Write) :
    extent start (writes ++ more) = extent (extent start writes) more := by
  rw [extent, List.filter_append, List.map_append, List.foldl_append, extent, extent]

theorem replay_singleton (memory : Memory) (w : Write) :
    replay memory [w] = if w.fits then w.apply memory else memory := by
  cases h : w.fits with
  | true => simp [replay, h]
  | false => simp [replay, h]

theorem extent_singleton (start : Nat) (w : Write) :
    extent start [w] = if w.fits then max start w.stop else start := by
  cases h : w.fits with
  | true => simp [extent, h]
  | false => simp [extent, h]

/-- The extent takes in every write that fits, and nothing else. -/
theorem extent_le_iff {start n : Nat} {writes : List Write} :
    extent start writes ≤ n ↔ start ≤ n ∧ ∀ w ∈ writes, w.fits = true → w.stop ≤ n := by
  induction writes generalizing start with
  | nil => exact (and_iff_left fun _ h => absurd h List.not_mem_nil).symm
  | cons w writes ih =>
    have hcons : extent start (w :: writes) = extent (extent start [w]) writes :=
      extent_append start [w] writes
    have hfirst : extent start [w] ≤ n ↔ start ≤ n ∧ (w.fits = true → w.stop ≤ n) := by
      rw [extent_singleton]
      split
      · rename_i hfits
        rw [Nat.max_le, forall_prop_of_true hfits]
      · rename_i hfits
        exact (and_iff_left fun h => absurd h hfits).symm
    rw [hcons, ih, hfirst, List.forall_mem_cons, and_assoc]

/-- No write that fits reaches past the end. -/
theorem extent_le (writes : List Write) {start : Nat} (h : start ≤ Address.memorySize) :
    extent start writes ≤ Address.memorySize :=
  extent_le_iff.mpr ⟨h, fun _ _ hfits => of_decide_eq_true hfits⟩

/-! ## Writes apart from each other -/

/-- No byte belongs to both blocks. -/
def Apart (w w' : Write) : Prop := w.stop ≤ w'.addr ∨ w'.stop ≤ w.addr

theorem apply_inside (w : Write) (memory : Memory) {i : Nat} {b : UInt8}
    (h : w.bytes[i]? = some b) : w.apply memory (w.addr + i) = b := by
  rw [apply, if_pos (Nat.le_add_right _ _), Nat.add_sub_cancel_left, h, Option.getD_some]

theorem apply_outside (w : Write) (memory : Memory) {i : Nat} (h : i < w.addr ∨ w.stop ≤ i) :
    w.apply memory i = memory i := by
  unfold apply
  split
  · rename_i hlo
    have hhi : w.bytes.length ≤ i - w.addr := by
      unfold stop at h
      omega
    rw [List.getElem?_eq_none hhi, Option.getD_none]
  · rfl

/-- Where no write that fits has a byte, the memory stays as it was. -/
theorem replay_outside (memory : Memory) {writes : List Write} {i : Nat}
    (h : ∀ w ∈ writes, w.fits = true → i < w.addr ∨ w.stop ≤ i) :
    replay memory writes i = memory i := by
  induction writes generalizing memory with
  | nil => rfl
  | cons w writes ih =>
    have hfirst : replay memory [w] i = memory i := by
      rw [replay_singleton]
      split
      · rename_i hfits
        exact apply_outside w memory (h w List.mem_cons_self hfits)
      · rfl
    have hcons : replay memory (w :: writes) = replay (replay memory [w]) writes :=
      replay_append memory [w] writes
    rw [hcons, ih _ fun w' hw' => h w' (List.mem_cons_of_mem _ hw'), hfirst]

/-- Among writes apart from each other, each one that fits can be read back. -/
theorem replay_inside (memory : Memory) {writes : List Write} (hapart : writes.Pairwise Apart)
    {w : Write} (hw : w ∈ writes) (hfits : w.fits = true) {i : Nat} {b : UInt8}
    (hbyte : w.bytes[i]? = some b) : replay memory writes (w.addr + i) = b := by
  induction writes generalizing memory with
  | nil => cases hw
  | cons first writes ih =>
    obtain ⟨hfirst, hrest⟩ := List.pairwise_cons.mp hapart
    have hcons : replay memory (first :: writes) = replay (replay memory [first]) writes :=
      replay_append memory [first] writes
    rw [hcons]
    rcases List.mem_cons.mp hw with rfl | hlater
    · -- Nothing that comes later reaches into the block.
      have hi : i < w.bytes.length := (List.getElem?_eq_some_iff.mp hbyte).1
      rw [replay_outside, replay_singleton, if_pos hfits, apply_inside w memory hbyte]
      intro w' hw' _
      have h := hfirst w' hw'
      unfold Apart stop at h
      unfold stop
      omega
    · exact ih _ hrest hlater

theorem extent_of_not_fits {start : Nat} {writes : List Write}
    (h : ∀ w ∈ writes, w.fits = false) : extent start writes = start := by
  have hnone : writes.filter fits = [] := by
    rw [List.filter_eq_nil_iff]
    intro w hw hfits
    rw [h w hw] at hfits
    cases hfits
  rw [extent, hnone]
  rfl

end Write

/-! ## The image as a memory -/

theorem Bytes.ofLittleEndian_lt (bytes : List UInt8) :
    ofLittleEndian bytes < 256 ^ bytes.length := by
  induction bytes with
  | nil => decide
  | cons b bytes ih =>
    have hb := b.toNat_lt
    rw [ofLittleEndian, List.length_cons, Nat.pow_succ]
    omega

namespace Image

theorem read_insert (bytes : Std.TreeMap Nat UInt8) (addr : Nat) (b : UInt8) (i : Nat) :
    read ⟨bytes.insert addr b⟩ i = if addr = i then b else read ⟨bytes⟩ i := by
  rw [read, Std.TreeMap.getD_insert]
  simp [read]

/-- Putting bytes one after the other puts the whole block. -/
theorem read_store (bytes : Std.TreeMap Nat UInt8) (addr : Nat) (data : List UInt8) :
    read ⟨store bytes addr data⟩ = Write.apply ⟨addr, data⟩ (read ⟨bytes⟩) := by
  induction data generalizing bytes addr with
  | nil =>
    funext i
    simp [store, Write.apply]
  | cons b data ih =>
    funext i
    rw [store, ih]
    simp only [Write.apply, read_insert]
    -- Below the address, at it, and behind it.
    rcases Nat.lt_trichotomy i addr with h | h | h
    · rw [if_neg (by omega), if_neg (by omega), if_neg (by omega)]
    · subst h
      rw [if_neg (by omega), if_pos rfl, if_pos (Nat.le_refl i), Nat.sub_self]
      rfl
    · have hindex : i - addr = (i - (addr + 1)) + 1 := by omega
      rw [if_pos (by omega), if_neg (by omega), if_pos (by omega), hindex, List.getElem?_cons_succ]

theorem write?_eq (image : Image) (addr : Nat) (data : List UInt8) :
    image.write? addr data =
      if (Write.mk addr data).fits then some ⟨store image.bytes addr data⟩ else none := by
  unfold write? Write.fits
  simp only [decide_eq_true_eq]
  rfl

/-! ## Slices -/

theorem length_slice (image : Image) (addr count : Nat) :
    (image.slice addr count).length = count := by
  rw [slice, List.length_map, List.length_range']

theorem slice_append (image : Image) (addr count more : Nat) :
    image.slice addr (count + more) =
      image.slice addr count ++ image.slice (addr + count) more := by
  rw [slice, slice, slice, ← List.map_append, List.range'_append_1]

/-- A slice is known by its bytes. -/
theorem slice_eq_of_read {image : Image} {addr : Nat} {bytes : List UInt8}
    (h : ∀ i b, bytes[i]? = some b → image.read (addr + i) = b) :
    image.slice addr bytes.length = bytes := by
  apply List.ext_getElem?
  intro i
  rw [slice, List.getElem?_map]
  cases hbyte : bytes[i]? with
  | none =>
    have hlength := List.getElem?_eq_none_iff.mp hbyte
    rw [List.getElem?_eq_none (by rw [List.length_range']; exact hlength), Option.map_none]
  | some b =>
    have hi : i < bytes.length := (List.getElem?_eq_some_iff.mp hbyte).1
    rw [List.getElem?_range' hi, Option.map_some, Nat.one_mul, h i b hbyte]

/-- Blocks of `size` bytes in a row make up one block. -/
theorem slice_flatMap {α : Type} (image : Image) (size : Nat) (block : α → List UInt8) {addr : Nat}
    {items : List α}
    (h : ∀ i item, items[i]? = some item → image.slice (addr + size * i) size = block item) :
    image.slice addr (size * items.length) = items.flatMap block := by
  induction items generalizing addr with
  | nil => rfl
  | cons item items ih =>
    have hfirst := h 0 item rfl
    have hrest : image.slice (addr + size) (size * items.length) = items.flatMap block := by
      apply ih
      intro i item' hitem
      rw [← h (i + 1) item' hitem, Nat.mul_succ, Nat.add_comm (size * i), Nat.add_assoc]
    rw [Nat.mul_zero, Nat.add_zero] at hfirst
    rw [List.length_cons, Nat.mul_succ, Nat.add_comm (size * items.length), slice_append, hfirst,
      hrest, List.flatMap_cons]

/-- A write that fits is read back, if no other reaches into it. -/
theorem slice_of_replay {image : Image} {memory : Memory} {writes : List Write}
    (hread : image.read = Write.replay memory writes) (hapart : writes.Pairwise Write.Apart)
    {w : Write} (hw : w ∈ writes) (hfits : w.stop ≤ Address.memorySize) :
    image.slice w.addr w.bytes.length = w.bytes := by
  apply slice_eq_of_read
  intro i b hbyte
  rw [hread]
  exact Write.replay_inside memory hapart hw (decide_eq_true hfits) hbyte

/-! ## Wider reads -/

theorem readNat_lt (image : Image) (addr count : Nat) : image.readNat addr count < 256 ^ count := by
  unfold readNat
  split
  · have hlt := Bytes.ofLittleEndian_lt (image.slice addr count)
    rwa [length_slice] at hlt
  · exact Nat.pow_pos (by decide)

theorem toNat_readWord (image : Image) (addr : Nat) :
    (image.readWord addr).toNat = image.readNat addr 2 := by
  have hlt : image.readNat addr 2 < 2 ^ 16 := image.readNat_lt addr 2
  rw [readWord, BitVec.toNat_ofNat, Nat.mod_eq_of_lt hlt]

theorem toNat_readLong (image : Image) (addr : Nat) :
    (image.readLong addr).toNat = image.readNat addr 4 := by
  have hlt : image.readNat addr 4 < 2 ^ 32 := image.readNat_lt addr 4
  rw [readLong, BitVec.toNat_ofNat, Nat.mod_eq_of_lt hlt]

end Image

end PropellerAsm
