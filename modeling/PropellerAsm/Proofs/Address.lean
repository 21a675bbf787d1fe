import Mathlib.Algebra.Group.Nat.Defs
import PropellerAsm.Address

/-!
# Program counters and places

A program counter moves by one in register memory and by four in hub memory, and its place in the
image is computed by two scales.  Here both are put in terms of natural numbers: how far some longs
go, where the places of successive longs lie, and when they do not lie in one row.
-/
namespace PropellerAsm.Address

/-! ## Single steps -/

theorem isHub_iff (pc : Long) : isHub pc = true ↔ hubStart ≤ pc.toNat := by
  rw [isHub, decide_eq_true_eq]

theorem toByte_register {pc : Long} (h : pc.toNat < hubStart) : toByte pc = pc.toNat * 4 := by
  have hregister : ¬ isHub pc = true := by
    rw [isHub_iff]
    omega
  rw [toByte, if_neg hregister]

theorem toByte_hub {pc : Long} (h : hubStart ≤ pc.toNat) : toByte pc = pc.toNat := by
  rw [toByte, if_pos ((isHub_iff pc).mpr h)]

/-- In register memory some bytes fill whole longs. -/
theorem toNat_step_register {pc : Long} (h : pc.toNat < hubStart) (bytes : Nat) :
    (step pc bytes).toNat = pc.toNat + (bytes + 3) % 2 ^ 32 / 4 := by
  have hregister : ¬ isHub pc = true := by
    rw [isHub_iff]
    omega
  have hstart : hubStart = 0x400 := rfl
  have hlongs : ((BitVec.ofNat 32 bytes + 3) / 4 : Long).toNat = (bytes + 3) % 2 ^ 32 / 4 := by
    rw [BitVec.toNat_udiv, BitVec.toNat_add, BitVec.toNat_ofNat, Nat.mod_add_mod]
    rfl
  rw [step, if_neg hregister, BitVec.toNat_add, hlongs]
  omega

theorem toNat_step_hub {pc : Long} (h : hubStart ≤ pc.toNat) (bytes : Nat) :
    (step pc bytes).toNat = (pc.toNat + bytes) % 2 ^ 32 := by
  rw [step, if_pos ((isHub_iff pc).mpr h), BitVec.toNat_add, BitVec.toNat_ofNat, Nat.add_mod_mod]

/-- The two scales of places. -/
theorem toByte_cases (pc : Long) :
    (pc.toNat < hubStart ∧ toByte pc = pc.toNat * 4) ∨
      (hubStart ≤ pc.toNat ∧ toByte pc = pc.toNat) := by
  rcases Nat.lt_or_ge pc.toNat hubStart with h | h
  · exact .inl ⟨h, toByte_register h⟩
  · exact .inr ⟨h, toByte_hub h⟩

/-- The ways to step over a long: by one, by four, and around from the last program counter. -/
theorem toNat_step_four_cases (pc : Long) :
    (pc.toNat < hubStart ∧ (step pc 4).toNat = pc.toNat + 1) ∨
      (hubStart ≤ pc.toNat ∧ (step pc 4).toNat = pc.toNat + 4) ∨
      (2 ^ 32 ≤ pc.toNat + 4 ∧ (step pc 4).toNat = pc.toNat + 4 - 2 ^ 32) := by
  have hpc := pc.isLt
  have hstart : hubStart = 0x400 := rfl
  rcases Nat.lt_or_ge pc.toNat hubStart with h | h
  · have hstep := toNat_step_register h 4
    omega
  · have hstep := toNat_step_hub h 4
    omega

/-! ## Longs one after the other -/

/-- The program counter behind some longs. -/
def advance (pc : Long) : Nat → Long
  | 0 => pc
  | count + 1 => advance (step pc 4) count

theorem advance_add (pc : Long) (count more : Nat) :
    advance pc (count + more) = advance (advance pc count) more := by
  induction count generalizing pc with
  | zero => rw [Nat.zero_add, advance]
  | succ count ih => rw [Nat.succ_add, advance, ih, advance]

/-- A long takes one register, which may be the last one. -/
theorem toNat_advance_register {pc : Long} {count : Nat} (h : pc.toNat + count ≤ hubStart) :
    (advance pc count).toNat = pc.toNat + count := by
  induction count generalizing pc with
  | zero => rfl
  | succ count ih =>
    have hstart : hubStart = 0x400 := rfl
    have hstep := toNat_step_four_cases pc
    rw [advance, ih (by omega)]
    omega

/-- A long takes four bytes of hub memory. -/
theorem toNat_advance_hub {pc : Long} (hpc : hubStart ≤ pc.toNat) {count : Nat}
    (h : pc.toNat + 4 * count < 2 ^ 32) : (advance pc count).toNat = pc.toNat + 4 * count := by
  induction count generalizing pc with
  | zero => rfl
  | succ count ih =>
    have hstep := toNat_step_four_cases pc
    rw [advance, ih (by omega) (by omega)]
    omega

/-- From the first register on, longs fill the registers, and then hub memory up to the last program
counter for a long. -/
theorem toNat_advance_zero {count : Nat} (h : count < 2 ^ 30 + 768) :
    (advance 0 count).toNat = max count (4 * count - 3072) := by
  have hstart : hubStart = 0x400 := rfl
  have hzero : (0 : Long).toNat = 0 := rfl
  rcases Nat.le_total count 1024 with hfew | hmany
  · rw [toNat_advance_register (by omega)]
    omega
  · have hregisters : (advance 0 1024).toNat = 0 + 1024 := toNat_advance_register (by omega)
    obtain ⟨more, rfl⟩ := Nat.exists_eq_add_of_le hmany
    rw [advance_add, toNat_advance_hub (by omega) (by omega)]
    omega

/-- After some billion longs the program counter comes around to the first register. -/
theorem advance_around : advance 0 (2 ^ 30 + 768) = 0 := by
  have hbefore : (advance 0 (2 ^ 30 + 767)).toNat = 0xfffffffc := toNat_advance_zero (by decide)
  have hlast := toNat_step_four_cases (advance 0 (2 ^ 30 + 767))
  have hlt := (step (advance 0 (2 ^ 30 + 767)) 4).isLt
  have hsplit : 2 ^ 30 + 768 = 2 ^ 30 + 767 + 1 := by decide
  rw [hsplit, advance_add, advance, advance]
  apply BitVec.eq_of_toNat_eq
  have hstart : hubStart = 0x400 := rfl
  show _ = 0
  omega

/-- The longs from a program counter on do not lie in one memory: they pass from register memory to
hub memory, over the end of hub memory, or over the last program counter. -/
def Straddles (pc : Long) (count : Nat) : Prop :=
  (pc.toNat < hubStart ∧ hubStart < pc.toNat + count) ∨
    (pc.toNat + 4 ≤ memorySize ∧ memorySize < pc.toNat + 4 * count) ∨
    2 ^ 32 < pc.toNat + 4 * count

instance (pc : Long) (count : Nat) : Decidable (Straddles pc count) :=
  inferInstanceAs (Decidable ((_ ∧ _) ∨ (_ ∧ _) ∨ _))

/-- Longs in one memory have their places in a row. -/
theorem toByte_advance {pc : Long} {count : Nat} (h : ¬ Straddles pc count) {i : Nat}
    (hi : i < count) : toByte (advance pc i) = toByte pc + 4 * i := by
  simp only [Straddles, not_or, not_and] at h
  obtain ⟨hstart, -, hlast⟩ := h
  rcases Nat.lt_or_ge pc.toNat hubStart with hregister | hhub
  · have hcount := hstart hregister
    have hpc := toNat_advance_register (show pc.toNat + i ≤ hubStart by omega)
    rw [toByte_register (by omega), hpc, toByte_register hregister]
    omega
  · have hpc := toNat_advance_hub hhub (show pc.toNat + 4 * i < 2 ^ 32 by omega)
    rw [toByte_hub (by omega), hpc, toByte_hub hhub]

/-- The next long has a place of its own. -/
theorem toByte_step_apart (pc : Long) :
    toByte pc + 4 ≤ toByte (step pc 4) ∨ toByte (step pc 4) + 4 ≤ toByte pc := by
  have hstart : hubStart = 0x400 := rfl
  have hpc := pc.isLt
  have hplace := toByte_cases pc
  have hstep := toNat_step_four_cases pc
  have hnext := toByte_cases (step pc 4)
  omega

/-- So has the long after the next. -/
theorem toByte_step_step_apart (pc : Long) :
    toByte pc + 4 ≤ toByte (step (step pc 4) 4) ∨
      toByte (step (step pc 4) 4) + 4 ≤ toByte pc := by
  have hstart : hubStart = 0x400 := rfl
  have hpc := pc.isLt
  have hplace := toByte_cases pc
  have hstep := toNat_step_four_cases pc
  have hstep' := toNat_step_four_cases (step pc 4)
  have hnext := toByte_cases (step (step pc 4) 4)
  omega

end PropellerAsm.Address
