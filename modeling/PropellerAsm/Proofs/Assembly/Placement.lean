import PropellerAsm.Proofs.Address
import PropellerAsm.Proofs.Assembly.FaultyLine

/-!
# Where instructions are stored

The longs of an instruction, with its augmentations before it, are stored one by one, each at the
place of its own program counter.  Inside register memory, and inside hub memory, these places lie
in a row, so that the instruction is stored in one piece, or behind the end of memory not at all.
From the last register on, the row goes on at the start of hub memory; and at the end of memory the
longs that still fit are stored without the others.
-/
namespace PropellerAsm

namespace Write

theorem getElem?_longs (pc : Long) (longs : List Long) (i : Nat) :
    (Write.longs pc longs)[i]? = (longs[i]?).map fun long =>
      ⟨Address.toByte (Address.advance pc i), Bytes.littleEndian 4 long.toNat⟩ := by
  induction longs generalizing pc i with
  | nil => rfl
  | cons long longs ih =>
    cases i with
    | zero => rfl
    | succ i =>
      rw [Write.longs, List.getElem?_cons_succ, List.getElem?_cons_succ, ih]
      rfl

theorem stop_long (addr : Nat) (long : Long) :
    (Write.mk addr (Bytes.littleEndian 4 long.toNat)).stop = addr + 4 := by
  rw [stop, Bytes.length_littleEndian]

/-- Up to three longs do not overwrite each other, wherever they stand. -/
theorem longs_apart (pc : Long) {longs : List Long} (h : longs.length ≤ 3) :
    (Write.longs pc longs).Pairwise Apart := by
  have hnext : ∀ (q : Long) (long long' : Long),
      Apart ⟨Address.toByte q, Bytes.littleEndian 4 long.toNat⟩
        ⟨Address.toByte (Address.step q 4), Bytes.littleEndian 4 long'.toNat⟩ := by
    intro q long long'
    rw [Apart, stop_long, stop_long]
    exact Address.toByte_step_apart q
  have hafter : ∀ (q : Long) (long long' : Long),
      Apart ⟨Address.toByte q, Bytes.littleEndian 4 long.toNat⟩
        ⟨Address.toByte (Address.step (Address.step q 4) 4), Bytes.littleEndian 4 long'.toNat⟩ := by
    intro q long long'
    rw [Apart, stop_long, stop_long]
    exact Address.toByte_step_step_apart q
  -- Of up to three longs any two are next to each other, or next but one.
  match longs, h with
  | [], _ => exact List.Pairwise.nil
  | [first], _ => exact List.pairwise_singleton _ _
  | [first, second], _ => exact List.pairwise_pair.mpr (hnext pc first second)
  | [first, second, third], _ =>
    refine List.pairwise_cons.mpr ⟨?_, List.pairwise_pair.mpr (hnext _ second third)⟩
    intro w hw
    rcases List.mem_cons.mp hw with rfl | hw
    · exact hnext pc first second
    · obtain rfl := List.mem_singleton.mp hw
      exact hafter pc first third

/-- The longs that fit, by their places. -/
theorem forall_longs_iff {pc : Long} {longs : List Long} {P : Nat → Nat → Prop} :
    (∀ w ∈ Write.longs pc longs, w.fits = true → P w.addr w.stop) ↔
      ∀ i < longs.length, Address.toByte (Address.advance pc i) + 4 ≤ Address.memorySize →
        P (Address.toByte (Address.advance pc i)) (Address.toByte (Address.advance pc i) + 4) := by
  constructor
  · intro h i hi hfits
    have hwrite := getElem?_longs pc longs i
    rw [List.getElem?_eq_getElem hi, Option.map_some] at hwrite
    have hP := h _ (List.mem_of_getElem? hwrite)
    rw [fits, stop_long] at hP
    exact hP (decide_eq_true hfits)
  · intro h w hw hfits
    obtain ⟨i, hi⟩ := List.mem_iff_getElem?.mp hw
    rw [getElem?_longs] at hi
    obtain ⟨long, hlong, rfl⟩ := Option.map_eq_some_iff.mp hi
    rw [fits, stop_long] at hfits
    rw [stop_long]
    exact h i (List.getElem?_eq_some_iff.mp hlong).1 (of_decide_eq_true hfits)

/-- If the first of the longs in a row does not fit, none does. -/
theorem not_fits_longs {pc : Long} {longs : List Long}
    (hrow : ¬ Address.Straddles pc longs.length)
    (hout : Address.memorySize < Address.toByte pc + 4) :
    ∀ w ∈ Write.longs pc longs, w.fits = false := by
  have hnone := (@forall_longs_iff pc longs fun _ _ => False).mpr
  intro w hw
  rw [Bool.eq_false_iff]
  refine hnone (fun i hi hfits => ?_) w hw
  rw [Address.toByte_advance hrow hi] at hfits
  omega

end Write

namespace Encoded

/-- An instruction has up to two augmentations before it. -/
theorem length_longs_le (e : Encoded) : e.longs.length ≤ 3 := by
  obtain ⟨augd, augs, word⟩ := e
  cases augd <;> cases augs <;> simp [longs, augments]

variable {e : Encoded} {pc : Long} {image : Image} {memory : Memory}

/-- A long that fits is read back at the place of its own program counter. -/
theorem slice_long (hread : image.read = Write.replay memory (Write.longs pc e.longs)) {i : Nat}
    {long : Long} (hlong : e.longs[i]? = some long)
    (hfits : Address.toByte (Address.advance pc i) + 4 ≤ Address.memorySize) :
    image.slice (Address.toByte (Address.advance pc i)) 4 = Bytes.littleEndian 4 long.toNat := by
  have hwrite := Write.getElem?_longs pc e.longs i
  rw [hlong, Option.map_some] at hwrite
  have hslice := Image.slice_of_replay hread (Write.longs_apart pc e.length_longs_le)
    (List.mem_of_getElem? hwrite) (by rwa [Write.stop_long])
  rwa [Bytes.length_littleEndian] at hslice

/-- The longs of an instruction that stays in one memory and fits stand in a row. -/
theorem slice_longs (hread : image.read = Write.replay memory (Write.longs pc e.longs))
    (hrow : ¬ Address.Straddles pc e.longs.length)
    (hfits : Address.toByte pc + 4 * e.longs.length ≤ Address.memorySize) :
    image.slice (Address.toByte pc) (4 * e.longs.length) =
      e.longs.flatMap fun long => Bytes.littleEndian 4 long.toNat := by
  apply Image.slice_flatMap
  intro i long hlong
  have hi : i < e.longs.length := (List.getElem?_eq_some_iff.mp hlong).1
  rw [← Address.toByte_advance hrow hi]
  apply slice_long hread hlong
  rw [Address.toByte_advance hrow hi]
  omega

end Encoded

namespace Assembly

/-! ## The record of the next line -/

/-- The words of a line are read with or without a fault, and its record tells which. -/
theorem record_of_words {a : Assembly} {source : String} (h : a.nextWords source ≠ []) :
    ∃ record, (a.line source).lines = a.lines.push record ∧ record.number = a.lineNumber + 1 ∧
      ((∃ f, record.outcome = .fault f ∧
          (a.line source).diagnostics = a.diagnostics ++ [(a.lineNumber + 1, f)]) ∨
        ∃ label effect block text b,
          read a.nextPc (Word.code (a.nextWords source)) (a.begun block text) =
            .ok (label, effect) b ∧
          record.outcome = effect.outcome ∧ record.pc = effect.linePc a.nextPc ∧
          (a.line source).image.read = Write.replay a.image.read record.writes) := by
  obtain ⟨hnone, -⟩ | ⟨block, text, label, effect, b, hread, hline⟩ |
    ⟨block, text, f, b, hread, hline⟩ := a.line_outcomes source
  · exact absurd hnone h
  · -- The effect stores what the record says, from where the line was taken up.
    have hsame := (keeps_read _ _).of_ok hread
    generalize hrecord : Line.mk (a.lineNumber + 1) (effect.linePc a.nextPc) source
      (a.nextWords source) effect.outcome = record at hline
    have hpc : record.pc = effect.linePc a.nextPc := by rw [← hrecord]
    have houtcome : record.outcome = effect.outcome := by rw [← hrecord]
    have hstores := hsame.stores.append (b.stores_commit a.nextPc label effect record hpc houtcome)
    refine ⟨record, ?_, ?_, .inr ⟨label, effect, block, text, b, hread, houtcome, hpc, ?_⟩⟩
    · rw [hline]
      exact congrArg (Array.push · record) hstores.lines
    · rw [← hrecord]
    · rw [hline]
      exact hstores.memory
  · have hsame := (keeps_read _ _).of_error hread
    refine ⟨⟨a.lineNumber + 1, a.nextPc, source, a.nextWords source, .fault f⟩, ?_, rfl,
      .inl ⟨f, rfl, ?_⟩⟩
    · rw [hline]
      exact congrArg (Array.push · _) hsame.lines
    · rw [hline, diagnostics_keep rfl]
      show b.readFaults.map _ ++ b.lines.toList.filterMap _ ++ _ = _
      rw [hsame.readFaults, hsame.lines]
      rfl

/-- A line writes into the image what its record says. -/
theorem image_of_record {a : Assembly} (ha : Reachable a) {source : String} {record : Line}
    (hrecord : (a.line source).line? (a.lineNumber + 1) = some record) :
    (a.line source).image.read = Write.replay a.image.read record.writes ∧
      (a.line source).imageEnd = Write.extent a.imageEnd record.writes := by
  have hbefore := ha.settled.replayed
  have hafter := (ha.line source).settled.replayed
  have hlines : (a.line source).lines.toList = a.lines.toList ++ [record] := by
    rw [lines_of_record hbefore hrecord, Array.toList_push]
  constructor
  · rw [hafter.memory, hlines, List.flatMap_append, Write.replay_append, ← hbefore.memory,
      List.flatMap_singleton]
  · rw [hafter.extent, hlines, List.flatMap_append, Write.extent_append, ← hbefore.extent,
      List.flatMap_singleton]

theorem writes_of_code {record : Line} {e : Encoded} (h : record.outcome = .code e) :
    record.writes = Write.longs record.pc e.longs := by
  unfold Line.writes Line.opcode? Line.augments
  rw [h]
  rfl

/-! ## Instructions -/

/-- From one state to the next either nothing has been stored, or the longs stand in one piece at
the place of a program counter. -/
def WholeOrNothing (a b : Assembly) (pc : Long) (longs : List Long) : Prop :=
  ((∀ addr, b.image.read addr = a.image.read addr) ∧ b.imageEnd = a.imageEnd) ∨
    b.image.slice (Address.toByte pc) (4 * longs.length) =
      longs.flatMap fun long => Bytes.littleEndian 4 long.toNat

/-- The longs of an instruction stand each at the place of its own program counter, as far as they
fit, and nothing else is stored; and if they lie in one memory, they are stored in one piece or not
at all. -/
theorem instruction_stored_long_by_long {a : Assembly} (ha : Reachable a) {source : String}
    {record : Line} {e : Encoded}
    (hrecord : (a.line source).line? (a.lineNumber + 1) = some record)
    (hcode : record.outcome = .code e) :
    (∀ i long, e.longs[i]? = some long →
      Address.toByte (Address.advance record.pc i) + 4 ≤ Address.memorySize →
      (a.line source).image.slice (Address.toByte (Address.advance record.pc i)) 4 =
        Bytes.littleEndian 4 long.toNat) ∧
    (∀ addr, (∀ i < e.longs.length,
        Address.toByte (Address.advance record.pc i) + 4 ≤ Address.memorySize →
        addr < Address.toByte (Address.advance record.pc i) ∨
          Address.toByte (Address.advance record.pc i) + 4 ≤ addr) →
      (a.line source).image.read addr = a.image.read addr) ∧
    (∀ n, (a.line source).imageEnd ≤ n ↔ a.imageEnd ≤ n ∧ ∀ i < e.longs.length,
      Address.toByte (Address.advance record.pc i) + 4 ≤ Address.memorySize →
        Address.toByte (Address.advance record.pc i) + 4 ≤ n) ∧
    (¬ Address.Straddles record.pc e.longs.length →
      WholeOrNothing a (a.line source) record.pc e.longs) := by
  obtain ⟨hmemory, hextent⟩ := image_of_record ha hrecord
  rw [writes_of_code hcode] at hmemory hextent
  refine ⟨fun i long hlong hfits => Encoded.slice_long hmemory hlong hfits, ?_, ?_, fun hrow => ?_⟩
  · intro addr houtside
    rw [hmemory]
    apply Write.replay_outside
    exact (Write.forall_longs_iff (P := fun start stop => addr < start ∨ stop ≤ addr)).mpr houtside
  · intro n
    rw [hextent, Write.extent_le_iff]
    exact and_congr_right' (Write.forall_longs_iff (P := fun _ stop => stop ≤ n))
  -- In a row, either the last long fits and so do all, or the first one does not and none does.
  rcases Nat.lt_or_ge Address.memorySize (Address.toByte record.pc + 4) with hout | hin
  · left
    have hnone := Write.not_fits_longs hrow hout
    constructor
    · intro addr
      rw [hmemory]
      apply Write.replay_outside
      intro w hw hfits
      rw [hnone w hw] at hfits
      cases hfits
    · rw [hextent, Write.extent_of_not_fits hnone]
  · right
    apply Encoded.slice_longs hmemory hrow
    have hpc := Address.toByte_cases record.pc
    have hstart : Address.hubStart = 0x400 := rfl
    have hsize : Address.memorySize = 0x100000 := rfl
    simp only [Address.Straddles, not_or, not_and] at hrow
    omega

/-- Two augmentations and their instruction at the start of hub memory. -/
theorem instruction_stored_long_by_long_wrpin :
    ∃ record, ((({} : Assembly).line "orgh").line "if_nc wrpin ##1,##2").line? 2 = some record ∧
      record.outcome = .code ⟨some 0x3f800000, some 0x3f000000, 0x3c0c0202⟩ ∧
      ¬ Address.Straddles record.pc 3 ∧
      WholeOrNothing (({} : Assembly).line "orgh")
        ((({} : Assembly).line "orgh").line "if_nc wrpin ##1,##2") record.pc
        [0x3f800000, 0x3f000000, 0x3c0c0202] := by
  have hfind : (((({} : Assembly).line "orgh").line "if_nc wrpin ##1,##2").line? 2).map
      (fun record => (record.outcome, record.pc)) =
        some (.code ⟨some 0x3f800000, some 0x3f000000, 0x3c0c0202⟩, 0x400) := by decide +kernel
  obtain ⟨record, hrecord, hpair⟩ := Option.map_eq_some_iff.mp hfind
  obtain ⟨hcode, hpc⟩ := Prod.mk.inj hpair
  have hrow : ¬ Address.Straddles record.pc 3 := by
    rw [hpc]
    decide
  have hnumber : (({} : Assembly).line "orgh").lineNumber + 1 = 2 := by rw [lineNumber_line]
  refine ⟨record, hrecord, hcode, hrow, ?_⟩
  rw [← hnumber] at hrecord
  exact (instruction_stored_long_by_long (.line .new "orgh") hrecord hcode).2.2.2 hrow

/-- At the end of memory an augmentation is stored without its instruction, and at the last register
the two stand apart. -/
theorem instruction_not_in_one_piece :
    (∃ record e, ((({} : Assembly).line "orgh $ffffc").line "mov 0,##1").line? 2 = some record ∧
      record.outcome = .code e ∧
      ¬ WholeOrNothing (({} : Assembly).line "orgh $ffffc")
        ((({} : Assembly).line "orgh $ffffc").line "mov 0,##1") record.pc e.longs) ∧
    (∃ record e, ((({} : Assembly).line "org $3ff").line "mov 0,##1").line? 2 = some record ∧
      record.outcome = .code e ∧
      ¬ WholeOrNothing (({} : Assembly).line "org $3ff")
        ((({} : Assembly).line "org $3ff").line "mov 0,##1") record.pc e.longs) := by
  -- Something has been stored, and behind the augmentation stands no instruction.
  have hsplit : ∀ a b : Assembly,
      ((b.line? 2).map fun record =>
        (record.outcome, b.image.slice (Address.toByte record.pc) 8, b.imageEnd == a.imageEnd)) =
        some (.code ⟨none, some 0xff000000, 0xf6040001⟩, [0, 0, 0, 0xff, 0, 0, 0, 0], false) →
      ∃ record e, b.line? 2 = some record ∧ record.outcome = .code e ∧
        ¬ WholeOrNothing a b record.pc e.longs := by
    intro a b hfind
    obtain ⟨record, hrecord, htriple⟩ := Option.map_eq_some_iff.mp hfind
    obtain ⟨hcode, hpair⟩ := Prod.mk.inj htriple
    obtain ⟨hslice, hend⟩ := Prod.mk.inj hpair
    refine ⟨record, _, hrecord, hcode, ?_⟩
    rintro (⟨-, hsame⟩ | hwhole)
    · rw [hsame, beq_self_eq_true] at hend
      cases hend
    · have hbytes := hslice.symm.trans hwhole
      revert hbytes
      decide
  constructor
  · apply hsplit
    decide +kernel
  · apply hsplit
    decide +kernel

end Assembly

end PropellerAsm
