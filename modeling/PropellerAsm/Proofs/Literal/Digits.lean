import Mathlib.Order.Bounds.Defs
import PropellerAsm.Proofs.Expr.Leaves

/-!
# Digit runs as positional notation

What a run of digits is and what it stands for, stated apart from the reader.  A byte is read as
the character with the same code.  The reader ends at the first byte that is a stop, or that is
neither a separator nor a digit of the base, and its value is that of the digits before that byte
in positional notation, modulo `2 ^ 64`.
-/
namespace PropellerAsm

/-! ## Digits -/

namespace Radix

/-- The character is the digit `d` of the base; the digits from ten on are letters in either
case. -/
def Writes (r : Radix) (d : Nat) (c : Char) : Prop :=
  d < r.base ∧ (c = Nat.digitChar d ∨ c = (Nat.digitChar d).toUpper)

instance (r : Radix) (d : Nat) (c : Char) : Decidable (r.Writes d c) :=
  inferInstanceAs (Decidable (_ ∧ _))

theorem base_le (r : Radix) : r.base ≤ 16 := by
  cases r with
  | _ => decide

/-- The value of a byte, by the character that the byte stands for. -/
theorem digitValue?_eq_some_iff (b : UInt8) {d : Nat} (hd : d < 16) :
    digitValue? b = some d ↔
      Char.ofNat b.toNat = Nat.digitChar d ∨ Char.ofNat b.toNat = (Nat.digitChar d).toUpper := by
  constructor
  · intro h
    have hall : ∀ n < 256, ∀ d ∈ digitValue? (UInt8.ofNat n), d < 16 →
        Char.ofNat (UInt8.ofNat n).toNat = Nat.digitChar d ∨
          Char.ofNat (UInt8.ofNat n).toNat = (Nat.digitChar d).toUpper := by
      decide +kernel
    have hbyte := hall b.toNat b.toNat_lt d
    rw [UInt8.ofNat_toNat] at hbyte
    exact hbyte h hd
  · have hdigit : ∀ d < 16, digitValue? (Nat.digitChar d).toUInt8 = some d ∧
        digitValue? (Nat.digitChar d).toUpper.toUInt8 = some d := by
      decide
    rintro (h | h)
    · rw [← Expr.toUInt8_ofNat b, h]
      exact (hdigit d hd).1
    · rw [← Expr.toUInt8_ofNat b, h]
      exact (hdigit d hd).2

theorem digit?_eq_some_iff (r : Radix) (b : UInt8) (d : Nat) :
    r.digit? b = some d ↔ r.Writes d (Char.ofNat b.toNat) := by
  rw [digit?, Option.filter_eq_some_iff, decide_eq_true_eq, Writes, and_comm]
  exact and_congr_right fun hd => digitValue?_eq_some_iff b (Nat.lt_of_lt_of_le hd r.base_le)

end Radix

namespace Digits

/-! ## Runs -/

/-- The byte ends a run: it is a stop, or it is neither a separator nor a digit. -/
def Ends (r : Radix) (stop : List Char) (b : UInt8) : Prop :=
  Char.ofNat b.toNat ∈ stop ∨
    Char.ofNat b.toNat ≠ '_' ∧ ∀ d, ¬ r.Writes d (Char.ofNat b.toNat)

/-- The bytes spell the digits, the first one first, with separators anywhere. -/
inductive Spelled (r : Radix) : List Nat → List UInt8 → Prop where
  | nil : Spelled r [] []
  | digit {d b digits bytes} (written : r.Writes d (Char.ofNat b.toNat))
      (rest : Spelled r digits bytes) : Spelled r (d :: digits) (b :: bytes)
  | separator {b digits bytes} (underscore : Char.ofNat b.toNat = '_')
      (rest : Spelled r digits bytes) : Spelled r digits (b :: bytes)

theorem eq_underscore_iff (b : UInt8) : b = underscore ↔ Char.ofNat b.toNat = '_' := by
  constructor
  · rintro rfl
    decide
  · intro h
    rw [← Expr.toUInt8_ofNat b, h]
    decide

/-- A run goes on with a byte that does not end it. -/
theorem continues_iff_not_ends (r : Radix) (stop : List Char) (b : UInt8) :
    continues r stop b = true ↔ ¬ Ends r stop b := by
  have hstop : (!stop.contains (Char.ofNat b.toNat)) = true ↔ Char.ofNat b.toNat ∉ stop := by
    simp
  have hdigit : (r.digit? b).isSome = true ↔ ∃ d, r.Writes d (Char.ofNat b.toNat) := by
    rw [Option.isSome_iff_exists]
    exact exists_congr fun d => r.digit?_eq_some_iff b d
  rw [continues, Bool.and_eq_true, Bool.or_eq_true, hstop, hdigit, beq_iff_eq, eq_underscore_iff,
    Ends, not_or, not_and_or, not_not]
  simp only [not_forall, not_not]

theorem continues_of_mem_run {r : Radix} {stop : List Char} {text : List UInt8} {b : UInt8}
    (h : b ∈ run r stop text) : continues r stop b = true :=
  List.all_eq_true.mp List.all_takeWhile b h

/-- Bytes that go on with a run spell the digits that are read from them. -/
theorem spelled_of_continues {r : Radix} {stop : List Char} {bytes : List UInt8}
    (h : ∀ b ∈ bytes, continues r stop b = true) :
    Spelled r (bytes.filterMap r.digit?) bytes := by
  induction bytes with
  | nil => exact .nil
  | cons b bytes ih =>
    obtain ⟨hb, hbytes⟩ := List.forall_mem_cons.mp h
    cases hdigit : r.digit? b with
    | some d =>
      rw [List.filterMap_cons_some hdigit]
      exact .digit ((r.digit?_eq_some_iff b d).mp hdigit) (ih hbytes)
    | none =>
      rw [List.filterMap_cons_none hdigit]
      refine .separator ?_ (ih hbytes)
      -- What is no digit and does not end the run can only be a separator.
      rw [continues, hdigit, Bool.and_eq_true, Option.isSome_none, Bool.or_false, beq_iff_eq] at hb
      exact (eq_underscore_iff b).mp hb.2

theorem Spelled.filterMap_eq {r : Radix} {digits : List Nat} {bytes : List UInt8}
    (h : Spelled r digits bytes) : bytes.filterMap r.digit? = digits := by
  induction h with
  | nil => rfl
  | @digit d b _ _ written rest ih =>
    rw [List.filterMap_cons_some ((r.digit?_eq_some_iff b d).mpr written), ih]
  | @separator b _ _ underscore rest ih =>
    have hb : b = '_'.toUInt8 := (eq_underscore_iff b).mpr underscore
    rw [hb, List.filterMap_cons_none (by cases r <;> decide), ih]

/-- A spelling without stops is read to its end. -/
theorem Spelled.not_ends {r : Radix} {digits : List Nat} {bytes : List UInt8}
    (h : Spelled r digits bytes) {stop : List Char} (hstop : ∀ b ∈ bytes, Char.ofNat b.toNat ∉ stop) :
    ∀ b ∈ bytes, ¬ Ends r stop b := by
  induction h with
  | nil => exact nofun
  | @digit d b _ _ written rest ih =>
    obtain ⟨hb, hrest⟩ := List.forall_mem_cons.mp hstop
    refine List.forall_mem_cons.mpr ⟨?_, ih hrest⟩
    rintro (hmem | ⟨-, hnone⟩)
    · exact hb hmem
    · exact hnone d written
  | @separator b _ _ underscore rest ih =>
    obtain ⟨hb, hrest⟩ := List.forall_mem_cons.mp hstop
    refine List.forall_mem_cons.mpr ⟨?_, ih hrest⟩
    rintro (hmem | ⟨hne, -⟩)
    · exact hb hmem
    · exact hne underscore

/-! ## Values -/

/-- The value of a spelling is that of its digits. -/
theorem Spelled.value_eq {r : Radix} {digits : List Nat} {bytes : List UInt8}
    (h : Spelled r digits bytes) :
    value r bytes = BitVec.ofNat 64 (Nat.ofDigits r.base digits.reverse) := by
  rw [Expr.value_eq_numeral, Expr.numeral, h.filterMap_eq]

/-- The digits of a number, with zeros in front, stand for the number. -/
theorem ofDigits_zeros_digits (base zeros n : Nat) :
    Nat.ofDigits base (List.replicate zeros 0 ++ (Nat.digits base n).reverse).reverse = n := by
  rw [List.reverse_append, List.reverse_reverse, List.reverse_replicate,
    Nat.ofDigits_append_replicate_zero, Nat.ofDigits_digits]

/-! ## Reading at an offset -/

/-- Where bytes that go on with a run stand before one that ends it, that one is the first. -/
theorem isLeast_of_split {r : Radix} {stop : List Char} {text run rest : List UInt8} {start : Nat}
    (htext : text.drop start = run ++ rest) (hrun : ∀ b ∈ run, ¬ Ends r stop b)
    (hrest : ∀ b ∈ rest.head?, Ends r stop b) :
    IsLeast {i | start ≤ i ∧ ∀ b, text[i]? = some b → Ends r stop b} (start + run.length) := by
  have hbyte : ∀ i, text[start + i]? = (run ++ rest)[i]? := fun i => by
    rw [← htext, List.getElem?_drop]
  constructor
  · refine ⟨Nat.le_add_right _ _, ?_⟩
    intro b hb
    rw [hbyte, List.getElem?_append_right (Nat.le_refl _), Nat.sub_self,
      ← List.head?_eq_getElem?] at hb
    exact hrest b hb
  · rintro i ⟨hstart, hends⟩
    by_contra hbefore
    obtain ⟨k, rfl⟩ := Nat.exists_eq_add_of_le hstart
    have hk : k < run.length := by omega
    have hrunByte : text[start + k]? = some run[k] := by
      rw [hbyte, List.getElem?_append_left hk, List.getElem?_eq_getElem hk]
    exact hrun _ (List.getElem_mem hk) (hends _ hrunByte)

/-- The run that is found is the longest one. -/
theorem ends_of_mem_head?_rest {r : Radix} {stop : List Char} {text : List UInt8} :
    ∀ b ∈ (rest r stop text).head?, Ends r stop b := by
  intro b hb
  have hfirst : continues r stop b = false := by
    have hhead := List.head?_dropWhile_not (continues r stop) text
    rw [rest, Option.mem_def] at hb
    rwa [hb] at hhead
  by_contra hgoes
  rw [(continues_iff_not_ends r stop b).mpr hgoes] at hfirst
  cases hfirst

/-- The bytes from the start of the reader to its end are the run that it reads. -/
theorem take_readAt (r : Radix) (stop : List Char) (text : List UInt8) (start : Nat) :
    (text.drop start).take ((readAt r stop text start).2 - start) =
      run r stop (text.drop start) := by
  have hlength : (readAt r stop text start).2 - start = (run r stop (text.drop start)).length :=
    Nat.add_sub_cancel_left _ _
  rw [hlength]
  exact (List.prefix_iff_eq_take.mp (List.takeWhile_prefix _)).symm

/-- A text that starts with a spelling is read to the end of the spelling. -/
theorem readAt_of_spelled {r : Radix} {stop : List Char} {text spelling rest : List UInt8}
    {start : Nat} {digits : List Nat} (htext : text.drop start = spelling ++ rest)
    (hspelled : Spelled r digits spelling)
    (hstop : ∀ b ∈ spelling, Char.ofNat b.toNat ∉ stop) (hrest : ∀ b ∈ rest.head?, Ends r stop b) :
    readAt r stop text start =
      (BitVec.ofNat 64 (Nat.ofDigits r.base digits.reverse), start + spelling.length) := by
  have hgoes : ∀ b ∈ spelling, continues r stop b = true := fun b hb =>
    (continues_iff_not_ends r stop b).mpr (hspelled.not_ends hstop b hb)
  have hends : ∀ b ∈ rest.head?, continues r stop b = false := fun b hb =>
    Bool.eq_false_iff.mpr fun h => (continues_iff_not_ends r stop b).mp h (hrest b hb)
  have hrun : run r stop (text.drop start) = spelling := by
    rw [htext]
    exact (Expr.span_append hgoes hends).1
  rw [readAt, hrun, hspelled.value_eq]

/-- The digit reader reads positional notation.  It ends at the first byte from its start on that is
a stop or that is neither a separator nor a digit of the base, or at the end of the text; a start
behind the end stays where it is.  It returns the number that the digits in between stand for,
modulo `2 ^ 64`; so a number that is written out in the base, with zeros in front and separators
anywhere, is read back. -/
theorem readAt_positional (r : Radix) (stop : List Char) (text : List UInt8) (start : Nat) :
    IsLeast {i | start ≤ i ∧ ∀ b, text[i]? = some b → Ends r stop b}
      (readAt r stop text start).2 ∧
    (∃ digits, Spelled r digits ((text.drop start).take ((readAt r stop text start).2 - start)) ∧
      (readAt r stop text start).1 = BitVec.ofNat 64 (Nat.ofDigits r.base digits.reverse)) ∧
    ∀ (n : Quad) (zeros : Nat) (spelling rest : List UInt8),
      text.drop start = spelling ++ rest →
      Spelled r (List.replicate zeros 0 ++ (Nat.digits r.base n.toNat).reverse) spelling →
      (∀ b ∈ spelling, Char.ofNat b.toNat ∉ stop) → (∀ b ∈ rest.head?, Ends r stop b) →
      readAt r stop text start = (n, start + spelling.length) := by
  refine ⟨?_, ?_, ?_⟩
  · have hrun : ∀ b ∈ run r stop (text.drop start), ¬ Ends r stop b := fun b hb =>
      (continues_iff_not_ends r stop b).mp (continues_of_mem_run hb)
    exact isLeast_of_split (run_append_rest r stop (text.drop start)).symm hrun
      ends_of_mem_head?_rest
  · have hspelled : Spelled r _ (run r stop (text.drop start)) :=
      spelled_of_continues fun b hb => continues_of_mem_run hb
    rw [take_readAt]
    exact ⟨_, hspelled, hspelled.value_eq⟩
  · intro n zeros spelling rest htext hspelled hstop hrest
    rw [readAt_of_spelled htext hspelled hstop hrest, ofDigits_zeros_digits, BitVec.ofNat_toNat,
      BitVec.setWidth_eq]

/-- Digits in letters of either case, behind a mark, with zeros in front and separators, up to an
operator. -/
theorem readAt_hexadecimal :
    Spelled .hexadecimal [0, 0, 11, 14] (['0', '_', '0', 'b', 'E', '_'].map Char.toUInt8) ∧
      readAt .hexadecimal ['+']
        (['$', '0', '_', '0', 'b', 'E', '_', '+', '1'].map Char.toUInt8) 1 = (0xbe, 7) := by
  have hspelled :
      Spelled .hexadecimal [0, 0, 11, 14] (['0', '_', '0', 'b', 'E', '_'].map Char.toUInt8) :=
    .digit (by decide) (.separator (by decide) (.digit (by decide) (.digit (by decide)
      (.digit (by decide) (.separator (by decide) .nil)))))
  refine ⟨hspelled, ?_⟩
  have hdigits : [0, 0, 11, 14] =
      List.replicate 2 0 ++ (Nat.digits Radix.hexadecimal.base (0xbe : Quad).toNat).reverse := by
    simp [Radix.base]
  rw [hdigits] at hspelled
  have hstop : ∀ b ∈ ['0', '_', '0', 'b', 'E', '_'].map Char.toUInt8,
      Char.ofNat b.toNat ∉ ['+'] :=
    List.all_iff_forall_prop.mp (by decide)
  have hrest : ∀ b ∈ (['+', '1'].map Char.toUInt8).head?, Ends .hexadecimal ['+'] b := by
    rintro b ⟨rfl⟩
    exact .inl (by decide)
  exact (readAt_positional .hexadecimal ['+'] _ 1).2.2 0xbe 2 _ (['+', '1'].map Char.toUInt8) rfl
    hspelled hstop hrest

end Digits

end PropellerAsm
