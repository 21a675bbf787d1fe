import Mathlib.Algebra.Group.Nat.Defs
import PropellerAsm.Instruction.Pattern

/-!
# The bits that a pattern fixes

A pattern gives a mark to each bit from bit 27 down.  `Pattern.fixed?` reads the value of one bit
off the marks, and the fixed ones of the pattern have that value there.  A pattern is read by the
positions of its marks alone: blanks between them do not count, and neither do marks other than a
one at the end.
-/
namespace PropellerAsm.Pattern

/-- The value that marks fix a bit to; none for a bit of a field. -/
def fixedIn? (marks : List Char) (i : Nat) : Option Bool :=
  if i < capacity then
    match marks[capacity - 1 - i]? with
    | some '0' => some false
    | some '1' => some true
    | _ => none
  else none

/-- The value that a pattern fixes a bit to. -/
def fixed? (pattern : String) (i : Nat) : Option Bool :=
  fixedIn? (marks pattern) i

/-! ## Numbers by position -/

/-- The bits are used up before the marks if and only if there are more marks than bits. -/
theorem bitsWhere?_eq_none_iff (p : Char → Bool) (count : Nat) (marks : List Char) :
    bitsWhere? p count marks = none ↔ count < marks.length := by
  -- The recursion takes one mark and goes one bit down.
  induction count generalizing marks with
  | zero =>
    cases marks with
    | nil => simp [bitsWhere?]
    | cons c rest => simp [bitsWhere?]
  | succ count ih =>
    cases marks with
    | nil => simp [bitsWhere?]
    | cons c rest => rw [bitsWhere?, Option.map_eq_none_iff, ih, List.length_cons, Nat.succ_lt_succ_iff]

theorem exists_bitsWhere? (p : Char → Bool) {count : Nat} {marks : List Char}
    (h : marks.length ≤ count) : ∃ bits, bitsWhere? p count marks = some bits := by
  apply Option.ne_none_iff_exists'.mp
  rw [ne_eq, bitsWhere?_eq_none_iff]
  exact Nat.not_lt.mpr h

/-- Bit `i` of the number is what the mark for it says. -/
theorem testBit_bitsWhere {p : Char → Bool} {count : Nat} {marks : List Char} {bits : Nat}
    (h : bitsWhere? p count marks = some bits) (i : Nat) :
    bits.testBit i = (decide (i < count) && (marks[count - 1 - i]?).any p) := by
  induction count generalizing marks bits with
  | zero =>
    cases marks with
    | nil => simp [← Option.some.inj h]
    | cons c rest => cases h
  | succ count ih =>
    cases marks with
    | nil => simp [← Option.some.inj h]
    | cons c rest =>
      obtain ⟨below, hbelow, rfl⟩ := Option.map_eq_some_iff.mp h
      have hfirst : (if p c then 1 <<< count else 0).testBit i = (p c && decide (count = i)) := by
        split
        · rename_i hc
          rw [Nat.one_shiftLeft, Nat.testBit_two_pow, hc, Bool.true_and]
        · rename_i hc
          rw [Nat.zero_testBit, Bool.eq_false_iff.mpr hc, Bool.false_and]
      rw [Nat.testBit_or, ih hbelow, hfirst]
      -- The first mark is for the highest bit, the others for the bits below it.
      rcases Nat.lt_trichotomy i count with h | h | h
      · have hne : count ≠ i := by omega
        have hindex : count + 1 - 1 - i = (count - 1 - i) + 1 := by omega
        rw [hindex, List.getElem?_cons_succ]
        simp [hne, h, Nat.lt_succ_of_lt h]
      · subst h
        simp
      · have hne : count ≠ i := by omega
        have hbelow : ¬ i < count := by omega
        have habove : ¬ i < count + 1 := by omega
        simp [hne, hbelow, habove]

/-- Only marks with the property count, so further ones without it do not, as long as there is
room. -/
theorem bitsWhere_append {p : Char → Bool} {more : List Char} (h : ∀ c ∈ more, p c = false)
    {count : Nat} {marks : List Char} (hroom : (marks ++ more).length ≤ count) :
    bitsWhere? p count (marks ++ more) = bitsWhere? p count marks := by
  have hshort : marks.length ≤ count := by
    rw [List.length_append] at hroom
    exact Nat.le_of_add_right_le hroom
  obtain ⟨bits, hbits⟩ := exists_bitsWhere? p hroom
  obtain ⟨bits', hbits'⟩ := exists_bitsWhere? p hshort
  rw [hbits, hbits']
  refine congrArg some (Nat.eq_of_testBit_eq fun i => ?_)
  rw [testBit_bitsWhere hbits, testBit_bitsWhere hbits']
  congr 1
  -- A place behind the marks holds one of the further ones or nothing.
  by_cases hplace : count - 1 - i < marks.length
  · rw [List.getElem?_append_left hplace]
  · have hbehind : marks.length ≤ count - 1 - i := Nat.le_of_not_lt hplace
    rw [List.getElem?_append_right hbehind, List.getElem?_eq_none hbehind]
    cases hmore : more[count - 1 - i - marks.length]? with
    | none => rfl
    | some c => exact h c (List.mem_of_getElem? hmore)

/-! ## Patterns by position -/

theorem marks_append (s t : String) : marks (s ++ t) = marks s ++ marks t := by
  rw [marks, String.toList_append, List.filter_append, marks, marks]

theorem marks_of_blank {blanks : String} (h : ∀ c ∈ blanks.toList, Text.isBlank c = true) :
    marks blanks = [] := by
  rw [marks, List.filter_eq_nil_iff]
  intro c hc
  rw [h c hc]
  decide

theorem bits?_eq_none_iff (pattern : String) :
    bits? pattern = none ↔ capacity < (marks pattern).length := by
  rw [bits?, Option.map_eq_none_iff, bitsWhere?_eq_none_iff]

/-- A number of bits below bit 28, as a long. -/
theorem getLsbD_ofNat_bitsWhere {p : Char → Bool} {marks : List Char} {bits : Nat}
    (h : bitsWhere? p capacity marks = some bits) (i : Nat) :
    (BitVec.ofNat 32 bits).getLsbD i =
      (decide (i < capacity) && (marks[capacity - 1 - i]?).any p) := by
  rw [BitVec.getLsbD_ofNat, testBit_bitsWhere h]
  by_cases hi : i < capacity
  · have hwidth : i < 32 := Nat.lt_trans hi (by decide)
    rw [decide_eq_true hwidth, Bool.true_and]
  · rw [decide_eq_false hi, Bool.false_and, Bool.and_false]

theorem getLsbD_bits {pattern : String} {bits : Long} (h : bits? pattern = some bits) (i : Nat) :
    bits.getLsbD i =
      (decide (i < capacity) && ((marks pattern)[capacity - 1 - i]?).any (· == '1')) := by
  obtain ⟨n, hn, rfl⟩ := Option.map_eq_some_iff.mp h
  exact getLsbD_ofNat_bitsWhere hn i

theorem toNat_bits_lt {pattern : String} {bits : Long} (h : bits? pattern = some bits) :
    bits.toNat < 2 ^ capacity := by
  apply Nat.lt_pow_two_of_testBit
  intro i hi
  show bits.getLsbD i = false
  rw [getLsbD_bits h, decide_eq_false (Nat.not_lt.mpr hi), Bool.false_and]

/-- Mark number `i` is for bit `27 - i`. -/
theorem getLsbD_bits_of_mark {pattern : String} {bits : Long} (h : bits? pattern = some bits)
    {i : Nat} (hi : i < (marks pattern).length) (hroom : i < capacity) :
    bits.getLsbD (capacity - 1 - i) = true ↔ (marks pattern)[i] = '1' := by
  have hbelow : capacity - 1 - i < capacity := by omega
  have hindex : capacity - 1 - (capacity - 1 - i) = i := by omega
  rw [getLsbD_bits h, hindex, decide_eq_true hbelow, Bool.true_and, List.getElem?_eq_getElem hi,
    Option.any_some, beq_iff_eq]

/-- Blanks do not count. -/
theorem bits?_insert_blanks (before after : String) {blanks : String}
    (h : ∀ c ∈ blanks.toList, Text.isBlank c = true) :
    bits? (before ++ blanks ++ after) = bits? (before ++ after) := by
  have hmarks : marks (before ++ blanks ++ after) = marks (before ++ after) := by
    rw [marks_append, marks_append, marks_append, marks_of_blank h, List.append_nil]
  rw [bits?, hmarks, bits?]

/-- Marks other than a one may follow as long as there is room. -/
theorem bits?_append_of_not_one (pattern : String) {more : String} (hone : '1' ∉ more.toList)
    (hroom : (marks (pattern ++ more)).length ≤ capacity) :
    bits? (pattern ++ more) = bits? pattern := by
  have hnone : ∀ c ∈ marks more, (c == '1') = false := by
    intro c hc
    rw [beq_eq_false_iff_ne]
    rintro rfl
    exact hone (List.mem_filter.mp hc).1
  rw [marks_append] at hroom
  rw [bits?, marks_append, bitsWhere_append hnone hroom, bits?]

/-- Patterns are read by position.  A pattern has no meaning if and only if it has more than 28
marks; else its mark number `i` is for bit `27 - i`, which is set if and only if the mark is a one,
and all other bits are clear.  Blanks may be put in or taken out anywhere, and marks other than a
one may follow as long as there is room. -/
theorem bits_positional (pattern : String) :
    (bits? pattern = none ↔ 28 < (marks pattern).length) ∧
    (∀ bits, bits? pattern = some bits →
      bits.toNat < 2 ^ 28 ∧
      (∀ (i : Nat) (h : i < (marks pattern).length),
        bits.getLsbD (27 - i) = true ↔ (marks pattern)[i] = '1') ∧
      ∀ i < 28 - (marks pattern).length, bits.getLsbD i = false) ∧
    (∀ before blanks after : String, pattern = before ++ after →
      (∀ c ∈ blanks.toList, Text.isBlank c = true) →
      bits? (before ++ blanks ++ after) = bits? pattern) ∧
    (∀ more : String, '1' ∉ more.toList → (marks (pattern ++ more)).length ≤ 28 →
      bits? (pattern ++ more) = bits? pattern) := by
  have hcapacity : capacity = 28 := rfl
  refine ⟨bits?_eq_none_iff pattern, ?_, ?_, fun more => bits?_append_of_not_one pattern⟩
  · intro bits hbits
    have hlength : (marks pattern).length ≤ capacity := by
      apply Nat.le_of_not_lt
      rw [← bits?_eq_none_iff, hbits]
      exact nofun
    refine ⟨toNat_bits_lt hbits, ?_, ?_⟩
    · intro i hi
      exact getLsbD_bits_of_mark hbits hi (Nat.lt_of_lt_of_le hi hlength)
    · intro i hi
      have hbehind : (marks pattern).length ≤ capacity - 1 - i := by omega
      rw [getLsbD_bits hbits, List.getElem?_eq_none hbehind, Option.any_none, Bool.and_false]
  · rintro before blanks after rfl hblank
    exact bits?_insert_blanks before after hblank

/-! ## Fixed bits as longs -/

/-- The long whose bits are set where a mark satisfies `p`. -/
def longWhere (p : Char → Bool) (marks : List Char) : Long :=
  BitVec.ofNat 32 ((bitsWhere? p capacity marks).getD 0)

theorem getLsbD_longWhere (p : Char → Bool) {marks : List Char} (h : marks.length ≤ capacity)
    (i : Nat) : (longWhere p marks).getLsbD i =
      (decide (i < capacity) && (marks[capacity - 1 - i]?).any p) := by
  obtain ⟨bits, hbits⟩ := exists_bitsWhere? p h
  rw [longWhere, hbits, Option.getD_some, getLsbD_ofNat_bitsWhere hbits]

/-- The ones among marks. -/
def ones (marks : List Char) : Long :=
  longWhere (· == '1') marks

/-- The zeros and ones among marks. -/
def fixedBits (marks : List Char) : Long :=
  longWhere (fun c => c == '0' || c == '1') marks

theorem bits_eq_ones (pattern : String) : (bits? pattern).getD 0 = ones (marks pattern) := by
  unfold bits? ones longWhere
  cases bitsWhere? (· == '1') capacity (marks pattern) with
  | none => rfl
  | some bits => rfl

/-- A fixed bit has a mark, which is its digit. -/
theorem mark_of_fixedIn? {marks : List Char} {i : Nat} {b : Bool} (h : fixedIn? marks i = some b) :
    i < capacity ∧ marks[capacity - 1 - i]? = some (if b then '1' else '0') := by
  unfold fixedIn? at h
  by_cases hi : i < capacity
  · rw [if_pos hi] at h
    refine ⟨hi, ?_⟩
    split at h
    · rename_i hmark
      rw [hmark, ← Option.some.inj h]
      rfl
    · rename_i hmark
      rw [hmark, ← Option.some.inj h]
      rfl
    · cases h
  · rw [if_neg hi] at h
    cases h

variable {marks : List Char} {i : Nat} {b : Bool}

theorem getLsbD_ones (hlength : marks.length ≤ capacity) (h : fixedIn? marks i = some b) :
    (ones marks).getLsbD i = b := by
  obtain ⟨hi, hmark⟩ := mark_of_fixedIn? h
  rw [ones, getLsbD_longWhere _ hlength, hmark, decide_eq_true hi]
  cases b <;> rfl

theorem getLsbD_fixedBits (hlength : marks.length ≤ capacity) (h : fixedIn? marks i = some b) :
    (fixedBits marks).getLsbD i = true := by
  obtain ⟨hi, hmark⟩ := mark_of_fixedIn? h
  rw [fixedBits, getLsbD_longWhere _ hlength, hmark, decide_eq_true hi]
  cases b <;> rfl

end PropellerAsm.Pattern
