import Mathlib.Data.Bool.AllAny
import Mathlib.Data.List.Induction
import PropellerAsm.Proofs.Expr.Grammar

/-!
# Reading leaves

The readers of blanks, digit runs, strings and names against the grammar.  A reader takes as much
as it can, the grammar lets a run stop anywhere; the two agree on a text whose rest starts with a
byte that can follow an operand, as it does inside every whole expression.
-/
namespace PropellerAsm

namespace Expr

/-! ## Blanks -/

theorem isBlank_iff (b : UInt8) : isBlank b = true ↔ b = ' '.toUInt8 ∨ b = '\t'.toUInt8 := by
  simp [isBlank]

theorem Blanks.nil : Blanks [] := by
  intro b hb
  simp at hb

/-- Blanks in front of a text are skipped. -/
theorem skipBlanks_append {blanks : List UInt8} (h : Blanks blanks) (text : List UInt8) :
    skipBlanks (blanks ++ text) = skipBlanks text := by
  have hall : ∀ b ∈ blanks, isBlank b = true := fun b hb => (isBlank_iff b).mpr (h b hb)
  rw [skipBlanks, List.dropWhile_append_of_pos hall, skipBlanks]

/-- What is skipped are blanks. -/
theorem exists_blanks (text : List UInt8) :
    ∃ blanks, Blanks blanks ∧ text = blanks ++ skipBlanks text := by
  refine ⟨text.takeWhile isBlank, ?_, (List.takeWhile_append_dropWhile).symm⟩
  intro b hb
  exact (isBlank_iff b).mp (List.all_eq_true.mp List.all_takeWhile b hb)

theorem skipBlanks_cons {b : UInt8} (h : isBlank b = false) (text : List UInt8) :
    skipBlanks (b :: text) = b :: text := by
  simp [skipBlanks, h]

theorem skipBlanks_skipBlanks (text : List UInt8) :
    skipBlanks (skipBlanks text) = skipBlanks text := by
  obtain ⟨blanks, hblanks, htext⟩ := exists_blanks text
  conv_rhs => rw [htext]
  rw [skipBlanks_append hblanks]

theorem Blanks.skip_eq_nil {text : List UInt8} (h : Blanks text) : skipBlanks text = [] := by
  simpa [skipBlanks] using skipBlanks_append h []

/-! ## What follows an operand -/

/-- The bytes that may stand behind an operand: blanks, the first bytes of operators between
operands, and the closing parenthesis. -/
def delimiters : List UInt8 :=
  [' ', '\t', '!', '&', '|', '^', '<', '>', '+', '-', '*', '/', '\\', ')'].map Char.toUInt8

/-- The text is empty or starts with a delimiter. -/
def Delimited (text : List UInt8) : Prop :=
  ∀ b ∈ text.head?, b ∈ delimiters

theorem Delimited.nil : Delimited [] := by
  intro b hb
  simp at hb

theorem Delimited.cons {b : UInt8} (h : b ∈ delimiters) (text : List UInt8) :
    Delimited (b :: text) := by
  intro c hc
  obtain rfl : b = c := by simpa using hc
  exact h

/-- Blanks may stand before a delimiter. -/
theorem Blanks.delimited {blanks : List UInt8} (h : Blanks blanks) {text : List UInt8}
    (htext : Delimited text) : Delimited (blanks ++ text) := by
  cases blanks with
  | nil => exact htext
  | cons b blanks =>
    apply Delimited.cons
    rcases h b (by simp) with rfl | rfl
    · decide
    · decide

/-! ## Digit runs -/

/-- The byte is a separator or a digit of some base. -/
def isRunByte (b : UInt8) : Bool :=
  b == Digits.underscore || (Radix.digitValue? b).isSome

theorem isRunByte_of_digit {r : Radix} {b : UInt8} (h : (r.digit? b).isSome) :
    isRunByte b = true := by
  rw [Radix.digit?, Option.isSome_filter] at h
  have hsome : (Radix.digitValue? b).isSome := by
    cases hd : Radix.digitValue? b with
    | none => simp [hd] at h
    | some d => simp
  simp [isRunByte, hsome]

/-- A character with the code of a byte has no other byte. -/
theorem toUInt8_ofNat (b : UInt8) : (Char.ofNat b.toNat).toUInt8 = b := by
  have hlt : b.toNat < 256 := b.toNat_lt
  have hvalid : b.toNat.isValidChar := by
    left
    omega
  have hchar : Char.ofNat b.toNat = Char.ofNatAux b.toNat hvalid := dif_pos hvalid
  rw [hchar]
  apply UInt8.toNat_inj.mp
  exact Nat.mod_eq_of_lt hlt

/-- The characters that end a number are no digits and no separators. -/
theorem continues_iff (r : Radix) (b : UInt8) :
    Digits.continues r numberStops b = true ↔ b = '_'.toUInt8 ∨ (r.digit? b).isSome := by
  have hstops : ∀ c ∈ numberStops, isRunByte c.toUInt8 = false :=
    List.all_iff_forall_prop.mp (by decide)
  -- No stop could go on with a run anyway, so the test for stops changes nothing.
  have hstop : numberStops.contains (Char.ofNat b.toNat) = true → isRunByte b = false := by
    intro h
    have := hstops _ (by simpa using h)
    rwa [toUInt8_ofNat] at this
  simp only [Digits.continues, Bool.and_eq_true, Bool.not_eq_true', Bool.or_eq_true, beq_iff_eq]
  constructor
  · exact fun h => h.2
  · intro h
    refine ⟨?_, h⟩
    have hrun : isRunByte b = true := by
      rcases h with rfl | h
      · decide
      · exact isRunByte_of_digit h
    cases hc : numberStops.contains (Char.ofNat b.toNat) with
    | false => rfl
    | true => rw [hstop hc] at hrun; exact absurd hrun (by decide)

/-- No delimiter goes on with a digit run. -/
theorem not_continues_of_mem {b : UInt8} (h : b ∈ delimiters) (r : Radix) :
    Digits.continues r numberStops b = false := by
  have hall : ∀ b ∈ delimiters, isRunByte b = false := List.all_iff_forall_prop.mp (by decide)
  cases hc : Digits.continues r numberStops b with
  | false => rfl
  | true =>
    rcases (continues_iff r b).mp hc with rfl | hd
    · exact absurd h (by decide)
    · have hfalse := hall b h
      rw [isRunByte_of_digit hd] at hfalse
      exact absurd hfalse (by decide)

/-- The value of a run is its numeral, cut to 64 bits. -/
theorem value_eq_numeral (r : Radix) (run : List UInt8) :
    Digits.value r run = BitVec.ofNat 64 (numeral r run) := by
  unfold Digits.value numeral
  induction run.filterMap r.digit? using List.reverseRecOn with
  | nil => rfl
  | append_singleton digits d ih =>
    rw [List.foldl_append, ih, List.reverse_append, List.reverse_singleton, List.singleton_append,
      Nat.ofDigits_cons]
    simp only [List.foldl_cons, List.foldl_nil]
    rw [BitVec.ofNat_add, BitVec.ofNat_mul, BitVec.mul_comm, BitVec.add_comm]

/-- The bytes up to the first that fails a test, and the rest. -/
theorem span_append {p : UInt8 → Bool} {run rest : List UInt8} (hrun : ∀ b ∈ run, p b = true)
    (hrest : ∀ b ∈ rest.head?, p b = false) :
    (run ++ rest).takeWhile p = run ∧ (run ++ rest).dropWhile p = rest := by
  rw [List.takeWhile_append_of_pos hrun, List.dropWhile_append_of_pos hrun]
  cases rest with
  | nil => simp
  | cons b rest =>
    have hb : p b = false := hrest b (by simp)
    simp [hb]

/-- A run before a text that does not go on with it is read whole. -/
theorem read_run {r : Radix} {run rest : List UInt8} (hrun : Run r run)
    (hrest : ∀ b ∈ rest.head?, Digits.continues r numberStops b = false) :
    Digits.read r numberStops (run ++ rest) = (BitVec.ofNat 64 (numeral r run), rest) := by
  have hall : ∀ b ∈ run, Digits.continues r numberStops b = true :=
    fun b hb => (continues_iff r b).mpr (hrun b hb)
  obtain ⟨htake, hdrop⟩ := span_append hall hrest
  rw [Digits.read, Digits.run, Digits.rest, htake, hdrop, value_eq_numeral]

/-- What is read as a run is one. -/
theorem run_read (r : Radix) (text : List UInt8) :
    Run r (Digits.run r numberStops text) := by
  intro b hb
  exact (continues_iff r b).mp (List.all_eq_true.mp List.all_takeWhile b hb)

/-! ## Strings -/

/-- A byte goes behind the bytes so far as a digit in base 256. -/
theorem shiftLeft_or_byte (x : Quad) (b : UInt8) :
    x <<< 8 ||| BitVec.ofNat 64 b.toNat = x * 256 + BitVec.ofNat 64 b.toNat := by
  have hshift : x <<< 8 = x * 256 := by
    rw [BitVec.shiftLeft_eq_mul_twoPow]
    rfl
  -- The shift leaves the low eight bits to the byte.
  have hdisjoint : x <<< 8 &&& BitVec.ofNat 64 b.toNat = 0#64 := by
    apply BitVec.eq_of_getLsbD_eq
    intro i hi
    rw [BitVec.getLsbD_and, BitVec.getLsbD_shiftLeft, BitVec.getLsbD_ofNat]
    by_cases h : i < 8
    · simp [h]
    · have hbit : b.toNat.testBit i = false :=
        Nat.testBit_lt_two_pow (lt_of_lt_of_le b.toNat_lt (Nat.pow_le_pow_right (by decide)
          (Nat.le_of_not_lt h)))
      simp [hbit]
  rw [← BitVec.add_eq_or_of_and_eq_zero _ _ hdisjoint, hshift]

/-- The value of a string is its numeral, cut to 64 bits. -/
theorem value_eq_stringNumeral (content : List UInt8) :
    Quoted.value content = BitVec.ofNat 64 (stringNumeral content) := by
  unfold Quoted.value stringNumeral
  induction content using List.reverseRecOn with
  | nil => rfl
  | append_singleton content b ih =>
    rw [List.foldl_append, ih, List.map_append, List.reverse_append, List.map_singleton,
      List.reverse_singleton, List.singleton_append, Nat.ofDigits_cons]
    simp only [List.foldl_cons, List.foldl_nil]
    rw [shiftLeft_or_byte, BitVec.ofNat_add, BitVec.ofNat_mul, BitVec.mul_comm, BitVec.add_comm]
    rfl

/-- The string reader reads exactly the quotations. -/
theorem body_eq_iff {text content rest : List UInt8} :
    Quoted.body text = (content, rest) ↔ Quotation content text rest := by
  constructor
  · intro h
    -- One case for each branch of the reader: the end, a last byte, and a byte with others behind.
    fun_induction Quoted.body text generalizing content rest with
    | case1 =>
      obtain ⟨rfl, rfl⟩ := Prod.mk.inj h
      exact .unclosed
    | case2 b hb =>
      obtain ⟨rfl, rfl⟩ := Prod.mk.inj h
      rcases hb with rfl | rfl
      · exact .closed
      · exact .dangling
    | case3 b hb =>
      obtain ⟨rfl, rfl⟩ := Prod.mk.inj h
      rw [not_or] at hb
      exact .byte hb.1 hb.2 .unclosed
    | case4 c text =>
      obtain ⟨rfl, rfl⟩ := Prod.mk.inj h
      exact .closed
    | case5 c text more after hbody hquote ih =>
      obtain ⟨rfl, rfl⟩ := Prod.mk.inj h
      exact .escaped (ih hbody)
    | case6 b c text hq he more after hbody ih =>
      obtain ⟨rfl, rfl⟩ := Prod.mk.inj h
      exact .byte hq he (ih hbody)
  · intro h
    induction h with
    | @closed rest => cases rest <;> rfl
    | unclosed => rfl
    | dangling => rfl
    | escaped _ ih =>
      have hquote : '\\'.toUInt8 ≠ Quoted.quote := by decide
      have hescape : '\\'.toUInt8 = Quoted.escape := by decide
      rw [Quoted.body, if_neg hquote, if_pos hescape, ih]
    | @byte content text rest b hquote hescape more ih =>
      have hneither : ¬ (b = Quoted.quote ∨ b = Quoted.escape) := not_or.mpr ⟨hquote, hescape⟩
      cases text with
      | nil =>
        obtain ⟨rfl, rfl⟩ := Prod.mk.inj ih
        rw [Quoted.body, if_neg hneither]
      | cons c text => rw [Quoted.body, if_neg (by exact hquote), if_neg (by exact hescape), ih]

/-! ## Bytes of names -/

theorem isDigit_iff (b : UInt8) : isDigit b = true ↔ (Radix.decimal.digit? b).isSome := by
  simp only [isDigit, Bool.and_eq_true, decide_eq_true_eq, UInt8.le_iff_toNat_le, Radix.digit?,
    Radix.digitValue?, Radix.base]
  have h0 : '0'.toUInt8.toNat = 0x30 := by decide
  have h9 : '9'.toUInt8.toNat = 0x39 := by decide
  rw [h0, h9]
  constructor
  · intro h
    have hlt : b.toNat - 0x30 < 10 := by omega
    rw [if_pos h]
    simp [hlt]
  · intro h
    -- The letters have values from ten on.
    by_contra hdigit
    rw [if_neg hdigit] at h
    split at h
    · simp at h
    · split at h
      · simp at h
      · simp at h

theorem isNameByte_iff (b : UInt8) : isNameByte b = true ↔ InName b := by
  simp only [isNameByte, isNameStart, isDigit, InName, Bool.or_eq_true, Bool.and_eq_true,
    decide_eq_true_eq, beq_iff_eq]
  tauto

/-- The bytes of names are ASCII. -/
theorem InName.lt {b : UInt8} (h : InName b) : b.toNat < 128 := by
  simp only [InName, UInt8.le_iff_toNat_le, ← UInt8.toNat_inj] at h
  have hZ : 'Z'.toUInt8.toNat = 90 := rfl
  have hz : 'z'.toUInt8.toNat = 122 := rfl
  have h9 : '9'.toUInt8.toNat = 57 := rfl
  have hunderscore : '_'.toUInt8.toNat = 95 := rfl
  have hperiod : '.'.toUInt8.toNat = 46 := rfl
  have hcolon : ':'.toUInt8.toNat = 58 := rfl
  omega

/-- A byte of a name starts it unless it is a digit. -/
theorem isNameStart_of_inName {b : UInt8} (h : InName b) (hdigit : isDigit b = false) :
    isNameStart b = true := by
  have hbyte := (isNameByte_iff b).mpr h
  rwa [isNameByte, hdigit, Bool.or_false] at hbyte

/-! ## Leaves as they are read -/

/-- The tree holds no fault. -/
def wellFormed : Expr → Bool
  | fault _ => false
  | followed _ _ => false
  | unary _ e => e.wellFormed
  | binary _ l r => l.wellFormed && r.wellFormed
  | _ => true

/-- A digit that a text starts with belongs to the run. -/
theorem DigitLed.run {r : Radix} {text : List UInt8} (h : DigitLed r text) :
    DigitLed r (Digits.run r numberStops text) := by
  obtain ⟨b, more, rfl, hb⟩ := h
  refine ⟨b, more.takeWhile (Digits.continues r numberStops), ?_, hb⟩
  rw [Digits.run, List.takeWhile_cons_of_pos ((continues_iff r b).mpr (.inr hb))]

theorem number_eq (r : Radix) (text : List UInt8) :
    number r text = (.literal (.ofNat 64 (numeral r (Digits.run r numberStops text))),
      Digits.rest r numberStops text) := by
  rw [number, Digits.read, value_eq_numeral]

/-- The digits 8 and 9 are all that sets decimal digits apart from octal ones. -/
theorem octal_digit_of_isDigit {b : UInt8} (h : isDigit b = true) (h8 : b ≠ '8'.toUInt8)
    (h9 : b ≠ '9'.toUInt8) : (Radix.octal.digit? b).isSome := by
  simp only [isDigit, Bool.and_eq_true, decide_eq_true_eq, UInt8.le_iff_toNat_le] at h
  rw [ne_eq, ← UInt8.toNat_inj] at h8 h9
  have hbounds : '0'.toUInt8.toNat = 0x30 ∧ '8'.toUInt8.toNat = 0x38 ∧
      '9'.toUInt8.toNat = 0x39 := by
    decide
  obtain ⟨e0, e8, e9⟩ := hbounds
  rw [e0, e9] at h
  rw [e8] at h8
  rw [e9] at h9
  have hlt : b.toNat - 0x30 < 8 := by omega
  have hdigit : Radix.digitValue? b = some (b.toNat - 0x30) := if_pos h
  simp [Radix.digit?, hdigit, Radix.base, hlt]

/-- An octal number without a fault is a number that no digit 8 or 9 follows. -/
theorem octal_eq_number {text : List UInt8} (h : (octal text).1.wellFormed = true) :
    octal text = number .octal text ∧
      ∀ b ∈ (Digits.rest .octal numberStops text).head?, b ≠ '8'.toUInt8 ∧ b ≠ '9'.toUInt8 := by
  rw [number, octal] at *
  simp only [Digits.read] at *
  cases hrest : Digits.rest .octal numberStops text with
  | nil => simp
  | cons b more =>
    rw [hrest] at h
    by_cases hb : b = '8'.toUInt8 ∨ b = '9'.toUInt8
    · simp [hb, wellFormed] at h
    · rw [not_or] at hb
      simp [hb]

/-- A zero with a digit behind it is read as an octal number. -/
theorem octal_sound {text after : List UInt8} {e : Expr} (h : octal text = (e, after))
    (he : e.wellFormed = true) (hdigit : text.head?.any isDigit = true) :
    Leaf e ('0'.toUInt8 :: text) after := by
  have hwell : (octal text).1.wellFormed = true := by
    rw [h]
    exact he
  obtain ⟨hnumber, hfollow⟩ := octal_eq_number hwell
  rw [hnumber, number_eq] at h
  obtain ⟨rfl, rfl⟩ := Prod.mk.inj h
  have hled : DigitLed .octal text := by
    cases text with
    | nil => simp at hdigit
    | cons b more =>
      refine ⟨b, more, rfl, ?_⟩
      by_contra hnot
      -- A digit that is not octal would be where the run stops.
      have hrest : Digits.rest .octal numberStops (b :: more) = b :: more := by
        apply List.dropWhile_cons_of_neg
        rw [continues_iff]
        rintro (rfl | hb)
        · exact absurd (show isDigit '_'.toUInt8 = true from hdigit) (by decide)
        · exact hnot hb
      obtain ⟨h8, h9⟩ := hfollow b (by rw [hrest]; rfl)
      exact hnot (octal_digit_of_isDigit (by simpa using hdigit) h8 h9)
  have hleaf : Leaf _ ('0'.toUInt8 :: (Digits.run .octal numberStops text ++
      Digits.rest .octal numberStops text)) (Digits.rest .octal numberStops text) :=
    .octal (run_read .octal text) hled.run
  rwa [Digits.run_append_rest] at hleaf

/-- A number behind its mark, where the mark makes a run of digits a literal. -/
theorem leaf_of_number {r : Radix} (mark : List UInt8) {text after : List UInt8} {e : Expr}
    (h : number r text = (e, after))
    (hleaf : ∀ rest, Leaf (.literal (.ofNat 64 (numeral r (Digits.run r numberStops text))))
      (mark ++ (Digits.run r numberStops text ++ rest)) rest) :
    Leaf e (mark ++ text) after := by
  rw [number_eq] at h
  obtain ⟨rfl, rfl⟩ := Prod.mk.inj h
  have hrest := hleaf (Digits.rest r numberStops text)
  rwa [Digits.run_append_rest] at hrest

/-- A name that is read is as long as it can be. -/
theorem nameRun_sound {b : UInt8} {rest after : List UInt8} {e : Expr}
    (h : nameRun (b :: rest) = (e, after)) (hstart : isNameStart b = true)
    (hdigit : isDigit b = false) : Leaf e (b :: rest) after := by
  obtain ⟨rfl, rfl⟩ := Prod.mk.inj h
  have hbyte : isNameByte b = true := by rw [isNameByte, hstart, Bool.true_or]
  -- The first byte is part of the run, which is therefore not empty and not led by a digit.
  have hrun : (b :: rest).takeWhile isNameByte = b :: rest.takeWhile isNameByte :=
    List.takeWhile_cons_of_pos hbyte
  have hleaf : Leaf (.name (Utf8.ofAscii ((b :: rest).takeWhile isNameByte)))
      ((b :: rest).takeWhile isNameByte ++ (b :: rest).dropWhile isNameByte)
      ((b :: rest).dropWhile isNameByte) := by
    apply Leaf.name
    · rw [hrun]
      simp
    · intro c hc
      exact (isNameByte_iff c).mp (List.all_eq_true.mp List.all_takeWhile c hc)
    · rintro ⟨c, more, hc, hcdigit⟩
      rw [hrun] at hc
      obtain ⟨rfl, -⟩ := List.cons.inj hc
      rw [← isDigit_iff, hdigit] at hcdigit
      exact absurd hcdigit (by decide)
    · intro c hc hname
      have hnot := List.head?_dropWhile_not isNameByte (b :: rest)
      rw [Option.mem_def.mp hc] at hnot
      exact absurd ((isNameByte_iff c).mpr hname) (by simpa using hnot)
  rwa [List.takeWhile_append_dropWhile] at hleaf

theorem not_digitLed_nil (r : Radix) : ¬ DigitLed r [] := by
  rintro ⟨b, more, h, -⟩
  simp at h

theorem digitLed_cons_iff {r : Radix} {b : UInt8} {text : List UInt8} :
    DigitLed r (b :: text) ↔ (r.digit? b).isSome := by
  constructor
  · rintro ⟨c, more, h, hc⟩
    obtain ⟨rfl, -⟩ := List.cons.inj h
    exact hc
  · exact fun h => ⟨b, text, rfl, h⟩

/-- A leaf that starts with a dollar sign is a hexadecimal number or the program counter. -/
theorem dollar_sound {rest after : List UInt8} {e : Expr}
    (h : leaf '$'.toUInt8 rest = (e, after)) : Leaf e ('$'.toUInt8 :: rest) after := by
  unfold leaf at h
  rw [if_pos rfl] at h
  cases rest with
  | nil =>
    obtain ⟨rfl, rfl⟩ := Prod.mk.inj h
    exact .here (not_digitLed_nil _)
  | cons c more =>
    dsimp only at h
    by_cases hc : (Radix.hexadecimal.digit? c).isSome
    · rw [if_pos hc] at h
      have hled : DigitLed .hexadecimal (c :: more) := digitLed_cons_iff.mpr hc
      exact leaf_of_number ['$'.toUInt8] h
        (fun _ => .hexadecimal (run_read _ _) hled.run)
    · -- Without a digit behind it the sign is the program counter, and nothing else is taken.
      rw [if_neg hc] at h
      obtain ⟨rfl, rfl⟩ := Prod.mk.inj h
      exact .here (by rwa [digitLed_cons_iff])

/-- A leaf that starts with a percent sign is a number in base two or four. -/
theorem percent_sound {rest after : List UInt8} {e : Expr}
    (h : leaf '%'.toUInt8 rest = (e, after)) : Leaf e ('%'.toUInt8 :: rest) after := by
  unfold leaf at h
  rw [if_neg (by decide), if_pos rfl] at h
  cases rest with
  | nil =>
    exact leaf_of_number ['%'.toUInt8] h (fun _ => .binary (run_read _ _))
  | cons c more =>
    dsimp only at h
    by_cases hc : c = '%'.toUInt8
    · subst hc
      rw [if_pos rfl] at h
      exact leaf_of_number ['%'.toUInt8, '%'.toUInt8] h
        (fun _ => .quaternary (run_read _ _))
    · rw [if_neg hc] at h
      exact leaf_of_number ['%'.toUInt8] h (fun _ => .binary (run_read _ _))

/-- A digit that does not start an octal number starts a decimal one. -/
theorem decimal_sound {b : UInt8} {rest after : List UInt8} {e : Expr}
    (h : number .decimal (b :: rest) = (e, after)) (hdigit : isDigit b = true)
    (hzero : ¬ (b = '0'.toUInt8 ∧ rest.head?.any isDigit = true)) : Leaf e (b :: rest) after := by
  have hled : DigitLed .decimal (b :: rest) := digitLed_cons_iff.mpr ((isDigit_iff b).mp hdigit)
  refine leaf_of_number [] h (fun _ => .decimal (run_read _ _) hled.run ?_)
  rintro more hrun ⟨c, more', rfl, hc⟩
  apply hzero
  -- The run is a part of the text, so the two bytes in question stand in the text as well.
  have htext := Digits.run_append_rest .decimal numberStops (b :: rest)
  rw [hrun] at htext
  obtain ⟨hb, hrest⟩ := List.cons.inj htext
  have hhead : rest.head? = some c := by rw [← hrest]; rfl
  exact ⟨hb.symm, by simpa [hhead] using (isDigit_iff c).mpr hc⟩

/-- A leaf that is read without a fault is one of the grammar. -/
theorem leaf_sound {b : UInt8} {rest after : List UInt8} {e : Expr}
    (h : leaf b rest = (e, after)) (he : e.wellFormed = true) : Leaf e (b :: rest) after := by
  by_cases hdollar : b = '$'.toUInt8
  · subst hdollar
    exact dollar_sound h
  by_cases hpercent : b = '%'.toUInt8
  · subst hpercent
    exact percent_sound h
  -- The other alternatives, in the order in which the reader tries them.
  unfold leaf at h
  rw [if_neg hdollar, if_neg hpercent] at h
  split at h
  · next hquote =>
    subst hquote
    obtain ⟨rfl, rfl⟩ := Prod.mk.inj h
    rw [value_eq_stringNumeral]
    exact .string (body_eq_iff.mp rfl)
  split at h
  · next hzero =>
    obtain ⟨rfl, hdigit⟩ := hzero
    exact octal_sound h he hdigit
  split at h
  · next hzero hdigit => exact decimal_sound h hdigit hzero
  split at h
  · next hdigit hstart => exact nameRun_sound h hstart (by simpa using hdigit)
  · obtain ⟨rfl, -⟩ := Prod.mk.inj h
    simp [wellFormed] at he

/-! ## Leaves as they are written -/

/-- Bytes that no leaf starts with: blanks, unary operators, the opening parenthesis, and those
that make up the marks before an expression. -/
def signs : List UInt8 :=
  [' ', '\t', '-', '!', '~', '(', '#', '\\'].map Char.toUInt8

theorem not_isBlank_of_not_sign {b : UInt8} (h : b ∉ signs) : isBlank b = false := by
  cases hblank : isBlank b with
  | false => rfl
  | true =>
    rw [isBlank_iff] at hblank
    rcases hblank with rfl | rfl
    · exact absurd (by decide) h
    · exact absurd (by decide) h

/-- A number is read whole where a delimiter follows. -/
theorem number_append {r : Radix} {run rest : List UInt8} (hrun : Run r run)
    (hrest : Delimited rest) :
    number r (run ++ rest) = (.literal (.ofNat 64 (numeral r run)), rest) := by
  rw [number, read_run hrun (fun b hb => not_continues_of_mem (hrest b hb) r)]

/-- Neither a run nor a delimiter starts with a percent sign. -/
theorem head_ne_percent {r : Radix} {run rest : List UInt8} (hrun : Run r run)
    (hrest : Delimited rest) (b : UInt8) (hb : b ∈ (run ++ rest).head?) : b ≠ '%'.toUInt8 := by
  rintro rfl
  cases run with
  | nil => exact absurd (hrest _ hb) (by decide)
  | cons c more =>
    obtain rfl : c = '%'.toUInt8 := by simpa using hb
    have hnot : Digits.continues r numberStops '%'.toUInt8 = false := by cases r <;> decide
    rw [(continues_iff r _).mpr (hrun _ (by simp))] at hnot
    exact absurd hnot (by decide)

theorem DigitLed.append {r : Radix} {run : List UInt8} (h : DigitLed r run) (rest : List UInt8) :
    DigitLed r (run ++ rest) := by
  obtain ⟨b, more, rfl, hb⟩ := h
  exact ⟨b, more ++ rest, rfl, hb⟩

theorem leaf_here {rest : List UInt8} (h : ¬ DigitLed .hexadecimal rest) :
    leaf '$'.toUInt8 rest = (.here, rest) := by
  cases rest with
  | nil => rfl
  | cons c more =>
    rw [digitLed_cons_iff] at h
    simp [leaf, h]

theorem leaf_hexadecimal {text : List UInt8} (h : DigitLed .hexadecimal text) :
    leaf '$'.toUInt8 text = number .hexadecimal text := by
  obtain ⟨b, more, rfl, hb⟩ := h
  simp [leaf, hb]

theorem leaf_binary {text : List UInt8} (h : ∀ b ∈ text.head?, b ≠ '%'.toUInt8) :
    leaf '%'.toUInt8 text = number .binary text := by
  cases text with
  | nil => rfl
  | cons c more =>
    have hc : c ≠ '%'.toUInt8 := h c (by simp)
    unfold leaf
    rw [if_neg (by decide), if_pos rfl]
    exact if_neg hc

theorem leaf_quaternary (text : List UInt8) :
    leaf '%'.toUInt8 ('%'.toUInt8 :: text) = number .quaternary text := rfl

theorem leaf_string (text : List UInt8) :
    leaf '"'.toUInt8 text = (.literal (Quoted.value (Quoted.body text).1), (Quoted.body text).2) :=
  rfl

theorem isDigit_of_octal {b : UInt8} (h : (Radix.octal.digit? b).isSome) : isDigit b = true := by
  rw [isDigit_iff]
  cases hd : Radix.digitValue? b with
  | none => simp [Radix.digit?, hd] at h
  | some d =>
    rw [Radix.digit?, hd, Option.isSome_filter] at h
    have hlt : d < 8 := of_decide_eq_true h
    have hlt' : d < 10 := by omega
    simp [Radix.digit?, hd, Radix.base, hlt']

theorem leaf_octal {text : List UInt8} (h : DigitLed .octal text) :
    leaf '0'.toUInt8 text = octal text := by
  obtain ⟨b, more, rfl, hb⟩ := h
  have hdigit : ('0'.toUInt8 = '0'.toUInt8 ∧ (b :: more).head?.any isDigit = true) :=
    ⟨rfl, isDigit_of_octal hb⟩
  unfold leaf
  rw [if_neg (by decide), if_neg (by decide), if_neg (by decide), if_pos hdigit]

theorem leaf_decimal {b : UInt8} {rest : List UInt8} (hdigit : isDigit b = true)
    (hzero : ¬ (b = '0'.toUInt8 ∧ rest.head?.any isDigit = true)) :
    leaf b rest = number .decimal (b :: rest) := by
  have hdollar : b ≠ '$'.toUInt8 := by rintro rfl; exact absurd hdigit (by decide)
  have hpercent : b ≠ '%'.toUInt8 := by rintro rfl; exact absurd hdigit (by decide)
  have hquote : b ≠ Quoted.quote := by rintro rfl; exact absurd hdigit (by decide)
  unfold leaf
  rw [if_neg hdollar, if_neg hpercent, if_neg hquote, if_neg hzero, if_pos hdigit]

theorem leaf_name {b : UInt8} {rest : List UInt8} (hdigit : isDigit b = false)
    (hstart : isNameStart b = true) : leaf b rest = nameRun (b :: rest) := by
  have hdollar : b ≠ '$'.toUInt8 := by rintro rfl; exact absurd hstart (by decide)
  have hpercent : b ≠ '%'.toUInt8 := by rintro rfl; exact absurd hstart (by decide)
  have hquote : b ≠ Quoted.quote := by rintro rfl; exact absurd hstart (by decide)
  have hzero : ¬ (b = '0'.toUInt8 ∧ rest.head?.any isDigit = true) := by
    rintro ⟨rfl, -⟩
    exact absurd hstart (by decide)
  unfold leaf
  rw [if_neg hdollar, if_neg hpercent, if_neg hquote, if_neg hzero, if_neg (by simp [hdigit]),
    if_pos hstart]

/-- An octal number is read whole where a delimiter follows. -/
theorem octal_append {run rest : List UInt8} (hrun : Run .octal run) (hrest : Delimited rest) :
    octal (run ++ rest) = (.literal (.ofNat 64 (numeral .octal run)), rest) := by
  rw [octal, read_run hrun (fun b hb => not_continues_of_mem (hrest b hb) _)]
  cases rest with
  | nil => rfl
  | cons b more =>
    have hb : ¬ (b = '8'.toUInt8 ∨ b = '9'.toUInt8) := by
      have hmem := hrest b (by simp)
      rintro (rfl | rfl)
      · exact absurd hmem (by decide)
      · exact absurd hmem (by decide)
    exact if_neg hb

/-- A name is read up to the first byte that cannot be part of it. -/
theorem nameRun_append {run rest : List UInt8} (hrun : ∀ b ∈ run, InName b)
    (hrest : ∀ b ∈ rest.head?, ¬ InName b) :
    nameRun (run ++ rest) = (.name (Utf8.ofAscii run), rest) := by
  have hall : ∀ b ∈ run, isNameByte b = true := fun b hb => (isNameByte_iff b).mpr (hrun b hb)
  have hhead : ∀ b ∈ rest.head?, isNameByte b = false :=
    fun b hb => Bool.eq_false_iff.mpr fun h => hrest b hb ((isNameByte_iff b).mp h)
  obtain ⟨htake, hdrop⟩ := span_append hall hhead
  rw [nameRun, htake, hdrop]

/-- A delimiter is no digit. -/
theorem not_isDigit_of_delimited {text : List UInt8} (h : Delimited text) :
    text.head?.any isDigit = false := by
  have hall : ∀ b ∈ delimiters, isDigit b = false := List.all_iff_forall_prop.mp (by decide)
  cases text with
  | nil => rfl
  | cons b text => exact hall b (h b (by simp))

/-- The first byte of a leaf is none of the signs. -/
theorem Leaf.start {e : Expr} {text after : List UInt8} (h : Leaf e text after) :
    ∃ b rest, text = b :: rest ∧ b ∉ signs := by
  -- The literals with a mark start with it; digits and names are told apart from signs as classes.
  have hsigns : ∀ b ∈ signs, isDigit b = false ∧ isNameByte b = false :=
    List.all_iff_forall_prop.mp (by decide)
  cases h with
  | here => exact ⟨_, _, rfl, by decide⟩
  | hexadecimal => exact ⟨_, _, rfl, by decide⟩
  | binary => exact ⟨_, _, rfl, by decide⟩
  | quaternary => exact ⟨_, _, rfl, by decide⟩
  | octal => exact ⟨_, _, rfl, by decide⟩
  | decimal digits led =>
    obtain ⟨b, more, rfl, hb⟩ := led
    refine ⟨b, more ++ after, rfl, fun hmem => ?_⟩
    rw [← isDigit_iff, (hsigns b hmem).1] at hb
    exact absurd hb (by decide)
  | string => exact ⟨_, _, rfl, by decide⟩
  | name nonempty bytes =>
    obtain ⟨b, more, rfl⟩ := List.exists_cons_of_ne_nil nonempty
    refine ⟨b, more ++ after, rfl, fun hmem => ?_⟩
    have hb := (isNameByte_iff b).mpr (bytes b (by simp))
    rw [(hsigns b hmem).2] at hb
    exact absurd hb (by decide)

/-- Every leaf of the grammar before a delimiter is read as it is written. -/
theorem Leaf.read {e : Expr} {text after : List UInt8} (h : Leaf e text after)
    (hafter : Delimited after) {b : UInt8} {rest : List UInt8} (htext : text = b :: rest) :
    Expr.leaf b rest = (e, after) := by
  cases h with
  | here alone =>
    obtain ⟨rfl, rfl⟩ := List.cons.inj htext
    exact leaf_here alone
  | @hexadecimal run _ digits led =>
    obtain ⟨rfl, rfl⟩ := List.cons.inj htext
    rw [leaf_hexadecimal (led.append after), number_append digits hafter]
  | binary digits =>
    obtain ⟨rfl, rfl⟩ := List.cons.inj htext
    rw [leaf_binary (head_ne_percent digits hafter), number_append digits hafter]
  | quaternary digits =>
    obtain ⟨rfl, rfl⟩ := List.cons.inj htext
    rw [leaf_quaternary, number_append digits hafter]
  | @octal run _ digits led =>
    obtain ⟨rfl, rfl⟩ := List.cons.inj htext
    rw [leaf_octal (led.append after), octal_append digits hafter]
  | decimal digits led notOctal =>
    obtain ⟨c, more, rfl, hc⟩ := led
    obtain ⟨rfl, rfl⟩ := List.cons.inj htext
    have hzero : ¬ (c = '0'.toUInt8 ∧ (more ++ after).head?.any isDigit = true) := by
      rintro ⟨rfl, hhead⟩
      -- The byte behind a zero is no digit, neither inside the run nor behind it.
      cases more with
      | nil =>
        rw [List.nil_append, not_isDigit_of_delimited hafter] at hhead
        exact absurd hhead (by decide)
      | cons d more =>
        apply notOctal (d :: more) rfl
        exact digitLed_cons_iff.mpr ((isDigit_iff d).mp (by simpa using hhead))
    have hnumber := number_append digits hafter
    rw [List.cons_append] at hnumber
    exact (leaf_decimal ((isDigit_iff c).mpr hc) hzero).trans hnumber
  | string spelled =>
    obtain ⟨rfl, rfl⟩ := List.cons.inj htext
    rw [leaf_string, body_eq_iff.mpr spelled, value_eq_stringNumeral]
  | @name run _ nonempty bytes notDigit longest =>
    obtain ⟨c, more, rfl⟩ := List.exists_cons_of_ne_nil nonempty
    obtain ⟨rfl, rfl⟩ := List.cons.inj htext
    have hdigit : isDigit c = false := by
      rw [digitLed_cons_iff, ← isDigit_iff] at notDigit
      simpa using notDigit
    have hstart := isNameStart_of_inName (bytes c (by simp)) hdigit
    have hname := nameRun_append bytes longest
    rw [List.cons_append] at hname
    exact (leaf_name hdigit hstart).trans hname

/-! ## Lengths -/

theorem Quotation.length_le {content text rest : List UInt8} (h : Quotation content text rest) :
    rest.length ≤ text.length := by
  induction h with
  | closed => simp
  | unclosed => simp
  | dangling => simp
  | escaped _ ih => simp only [List.length_cons]; omega
  | byte _ _ _ ih => simp only [List.length_cons]; omega

/-- A leaf takes at least one byte. -/
theorem Leaf.length_lt {e : Expr} {text after : List UInt8} (h : Leaf e text after) :
    after.length < text.length := by
  cases h with
  | here => simp
  | hexadecimal => simp only [List.length_cons, List.length_append]; omega
  | binary => simp only [List.length_cons, List.length_append]; omega
  | quaternary => simp only [List.length_cons, List.length_append]; omega
  | octal => simp only [List.length_cons, List.length_append]; omega
  | decimal digits led =>
    obtain ⟨b, more, rfl, hb⟩ := led
    simp only [List.length_cons, List.length_append]
    omega
  | string spelled =>
    have := spelled.length_le
    simp only [List.length_cons]
    omega
  | @name run _ nonempty =>
    have := List.length_pos_iff.mpr nonempty
    simp only [List.length_append]
    omega

end Expr

end PropellerAsm
