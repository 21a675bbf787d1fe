import Mathlib.Data.List.Induction
import PropellerAsm.Proofs.Image

/-!
# The image after a history of updates

An image is a store of bytes in which the last writer wins.  After any history of writes and clears,
however they overlap, an address holds the byte that the last write that covers it has given to it
since the image was last cleared.  A write that reaches past the end is refused and changes nothing,
and wider reads put the bytes together, the least significant one first.
-/
namespace PropellerAsm

/-- The byte that a write gives to an address; none if it does not cover the address, or if it
reaches past the end and is refused. -/
def Write.byteAt? (w : Write) (a : Nat) : Option UInt8 :=
  if w.fits ∧ w.addr ≤ a then w.bytes[a - w.addr]? else none

theorem Write.apply_eq_byteAt? {w : Write} (h : w.fits = true) (memory : Memory) (a : Nat) :
    w.apply memory a = (w.byteAt? a).getD (memory a) := by
  unfold apply byteAt?
  by_cases ha : w.addr ≤ a
  · rw [if_pos ha, if_pos ⟨h, ha⟩]
  · rw [if_neg ha, if_neg fun hboth => ha hboth.2, Option.getD_none]

theorem Write.byteAt?_of_not_fits {w : Write} (h : w.fits = false) (a : Nat) :
    w.byteAt? a = none := by
  rw [byteAt?, if_neg]
  rw [h]
  exact fun hboth => absurd hboth.1 (by decide)

namespace Image

/-! ## Updates -/

/-- The bytes of a long, the least significant one first. -/
def longBytes (long : Long) : List UInt8 :=
  [0, 8, 16, 24].map fun shift => UInt8.ofBitVec (long.extractLsb' shift 8)

theorem littleEndian_eq_longBytes (long : Long) :
    Bytes.littleEndian 4 long.toNat = longBytes long := by
  have hbyte : ∀ shift n, n = long.toNat / 2 ^ shift →
      UInt8.ofNat n = UInt8.ofBitVec (long.extractLsb' shift 8) := by
    rintro shift n rfl
    apply UInt8.toBitVec_inj.mp
    apply BitVec.eq_of_toNat_eq
    simp [BitVec.extractLsb'_toNat, Nat.shiftRight_eq_div_pow]
  simp only [Bytes.littleEndian, longBytes, List.map_cons, List.map_nil, Nat.div_div_eq_div_mul]
  rw [hbyte 0 long.toNat (by simp), hbyte 8 (long.toNat / 256) rfl,
    hbyte 16 (long.toNat / (256 * 256)) rfl, hbyte 24 (long.toNat / (256 * 256 * 256)) rfl]

/-- What is done to an image. -/
inductive Update where
  | writeLong (addr : Nat) (long : Long)
  | writeBytes (addr : Nat) (data : List UInt8)
  | clear
deriving DecidableEq, Repr

namespace Update

/-- The image after an update; none if the update is refused. -/
def perform? (image : Image) : Update → Option Image
  | writeLong addr long => image.writeLong? addr long
  | writeBytes addr data => image.write? addr data
  | clear => some empty

/-- The write that an update makes. -/
def write? : Update → Option Write
  | writeLong addr long => some ⟨addr, longBytes long⟩
  | writeBytes addr data => some ⟨addr, data⟩
  | clear => none

/-- The byte that an update gives to an address. -/
def byteAt? (u : Update) (a : Nat) : Option UInt8 :=
  u.write?.bind fun w => w.byteAt? a

theorem eq_clear_of_write? {u : Update} (h : u.write? = none) : u = clear := by
  cases u with
  | writeLong addr long => cases h
  | writeBytes addr data => cases h
  | clear => rfl

theorem perform?_of_write? {u : Update} {w : Write} (h : u.write? = some w) (image : Image) :
    u.perform? image = if w.fits then some ⟨store image.bytes w.addr w.bytes⟩ else none := by
  cases u with
  | writeLong addr long =>
    obtain rfl := Option.some.inj h
    rw [perform?, writeLong?, littleEndian_eq_longBytes, write?_eq]
  | writeBytes addr data =>
    obtain rfl := Option.some.inj h
    rw [perform?, write?_eq]
  | clear => cases h

end Update

/-! ## Histories -/

/-- The image after one more update; a refused one leaves it as it is. -/
def after (image : Image) (u : Update) : Image :=
  (u.perform? image).getD image

/-- The image after a history of updates. -/
def run (history : List Update) : Image :=
  history.foldl after empty

/-- The byte that the last write to cover an address has given to it since the last clear. -/
def lastByte? (history : List Update) (a : Nat) : Option UInt8 :=
  (history.reverse.takeWhile (· ≠ .clear)).findSome? fun u => u.byteAt? a

theorem run_concat (history : List Update) (u : Update) :
    run (history ++ [u]) = (run history).after u := by
  rw [run, List.foldl_append, List.foldl_cons, List.foldl_nil, run]

theorem isSome_write? (image : Image) (addr : Nat) (data : List UInt8) :
    (image.write? addr data).isSome = true ↔ addr + data.length ≤ size := by
  unfold write?
  split
  · rename_i hfits
    exact iff_of_true rfl hfits
  · rename_i hfits
    exact iff_of_false (by decide) hfits

/-- What one update does to the byte at an address. -/
theorem read_after (image : Image) (u : Update) (a : Nat) :
    (image.after u).read a =
      if u = .clear then 0 else (u.byteAt? a).getD (image.read a) := by
  cases hwrite : u.write? with
  | none =>
    obtain rfl := Update.eq_clear_of_write? hwrite
    rw [if_pos rfl]
    rfl
  | some w =>
    have hclear : u ≠ .clear := by
      rintro rfl
      cases hwrite
    rw [if_neg hclear, after, Update.perform?_of_write? hwrite, Update.byteAt?, hwrite,
      Option.bind_some]
    cases hfits : w.fits with
    | true =>
      rw [if_pos rfl, Option.getD_some, read_store]
      exact Write.apply_eq_byteAt? hfits _ a
    | false =>
      rw [if_neg (by decide), Option.getD_none, Write.byteAt?_of_not_fits hfits, Option.getD_none]

/-- What one more update does to the last byte of an address. -/
theorem lastByte?_concat (history : List Update) (u : Update) (a : Nat) :
    lastByte? (history ++ [u]) a =
      if u = .clear then none else (u.byteAt? a).or (lastByte? history a) := by
  unfold lastByte?
  rw [List.reverse_append, List.reverse_singleton, List.singleton_append]
  by_cases hclear : u = .clear
  · rw [if_pos hclear, List.takeWhile_cons_of_neg (by simpa using hclear), List.findSome?_nil]
  · rw [if_neg hclear, List.takeWhile_cons_of_pos (by simpa using hclear), List.findSome?_cons]
    cases u.byteAt? a with
    | none => rw [Option.none_or]
    | some b => rw [Option.some_or]

/-- The last writer wins. -/
theorem read_run (history : List Update) (a : Nat) :
    (run history).read a = (lastByte? history a).getD 0 := by
  -- Updates come one after the other, so the induction takes the last one off.
  induction history using List.reverseRecOn with
  | nil => rfl
  | append_singleton history u ih =>
    rw [run_concat, read_after, lastByte?_concat]
    by_cases hclear : u = .clear
    · rw [if_pos hclear, if_pos hclear, Option.getD_none]
    · rw [if_neg hclear, if_neg hclear, ih]
      cases u.byteAt? a with
      | none => rw [Option.none_or, Option.getD_none]
      | some b => rw [Option.some_or, Option.getD_some, Option.getD_some]

/-- The second write has the last word on the byte; the third one is refused. -/
example : lastByte? [.writeLong 0 0x12345678, .writeBytes 1 [0xaa, 0xbb],
    .writeBytes 0xfffff [0xcc, 0xdd]] 1 = some 0xaa := by decide

/-- The image is a store of bytes in which the last writer wins.  After any history of updates, a
write is accepted if and only if its whole range lies below the end, and a refused one changes no
byte; an address holds the byte that the last write to cover it has given to it since the last
clear, or else zero; and a wider read gives the bytes put together, the least significant one first,
or zero where its range reaches past the end. -/
theorem last_writer_wins (history : List Update) :
    (∀ addr long, ((run history).writeLong? addr long).isSome = true ↔ addr + 4 ≤ 0x100000) ∧
    (∀ addr data,
      ((run history).write? addr data).isSome = true ↔ addr + data.length ≤ 0x100000) ∧
    (∀ u : Update, u.perform? (run history) = none →
      ∀ a, (run (history ++ [u])).read a = (run history).read a) ∧
    (∀ a, (run history).read a = (lastByte? history a).getD 0) ∧
    (∀ a, ((run history).readWord a).toNat =
      if a + 2 ≤ 0x100000 then
        ((run history).read a).toNat + 256 * ((run history).read (a + 1)).toNat
      else 0) ∧
    ∀ a, ((run history).readLong a).toNat =
      if a + 4 ≤ 0x100000 then
        ((run history).read a).toNat + 256 * ((run history).read (a + 1)).toNat +
          256 ^ 2 * ((run history).read (a + 2)).toNat +
          256 ^ 3 * ((run history).read (a + 3)).toNat
      else 0 := by
  refine ⟨?_, ?_, ?_, read_run history, ?_, ?_⟩
  · intro addr long
    rw [writeLong?, isSome_write?, Bytes.length_littleEndian]
    rfl
  · intro addr data
    exact isSome_write? _ addr data
  · intro u hrefused a
    rw [run_concat, after, hrefused, Option.getD_none]
  · intro a
    rw [toNat_readWord]
    rfl
  · intro a
    have hbytes : Bytes.ofLittleEndian ((run history).slice a 4) =
        ((run history).read a).toNat + 256 * (((run history).read (a + 1)).toNat +
          256 * (((run history).read (a + 2)).toNat +
            256 * ((run history).read (a + 3)).toNat)) := rfl
    rw [toNat_readLong, readNat, hbytes]
    have hsize : size = 0x100000 := rfl
    rw [hsize]
    split
    · omega
    · rfl

end Image

end PropellerAsm
