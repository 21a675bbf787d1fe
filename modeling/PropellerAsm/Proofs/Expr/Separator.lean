import PropellerAsm.Proofs.Encoding.Constant

/-!
# Separators in numbers

A number is the mark of its base and a run of digits, and its value is that of the digits on the
text, the zero that marks an octal number among them.  Separators behind the first digit are no
digits, so they do not change the value; but right behind the zero of an octal number a separator
hides that a digit follows, and the number is read as a decimal one.
-/
namespace PropellerAsm

namespace Expr

/-! ## Numbers -/

/-- The numbers in a base, as texts. -/
inductive Number : Radix → List UInt8 → Prop where
  | hexadecimal {run} (digits : Run .hexadecimal run) (led : DigitLed .hexadecimal run) :
      Number .hexadecimal ('$'.toUInt8 :: run)
  | binary {run} (digits : Run .binary run) : Number .binary ('%'.toUInt8 :: run)
  | quaternary {run} (digits : Run .quaternary run) :
      Number .quaternary ('%'.toUInt8 :: '%'.toUInt8 :: run)
  | octal {run} (digits : Run .octal run) (led : DigitLed .octal run) :
      Number .octal ('0'.toUInt8 :: run)
  /-- A zero with a digit behind it is not decimal. -/
  | decimal {run} (digits : Run .decimal run) (led : DigitLed .decimal run)
      (notOctal : ∀ more, run = '0'.toUInt8 :: more → ¬ DigitLed .decimal more) :
      Number .decimal run

/-- A byte that is no digit does not count. -/
theorem numeral_cons_of_none {r : Radix} {b : UInt8} (h : r.digit? b = none) (text : List UInt8) :
    numeral r (b :: text) = numeral r text := by
  rw [numeral, numeral, List.filterMap_cons_none h]

/-- A zero in front does not count. -/
theorem numeral_cons_of_zero {r : Radix} {b : UInt8} (h : r.digit? b = some 0)
    (text : List UInt8) : numeral r (b :: text) = numeral r text := by
  rw [numeral, numeral, List.filterMap_cons_some h, List.reverse_cons, Nat.ofDigits_append,
    Nat.ofDigits_singleton, Nat.mul_zero, Nat.add_zero]

/-- A number is a literal, and its value is that of the digits on its text. -/
theorem Number.leaf {r : Radix} {text : List UInt8} (h : Number r text) :
    Leaf (.literal (.ofNat 64 (numeral r text))) text [] := by
  cases h with
  | @hexadecimal run digits led =>
    have hleaf := @Leaf.hexadecimal run [] digits led
    rwa [List.append_nil, ← numeral_cons_of_none (b := '$'.toUInt8) (by decide)] at hleaf
  | @binary run digits =>
    have hleaf := @Leaf.binary run [] digits
    rwa [List.append_nil, ← numeral_cons_of_none (b := '%'.toUInt8) (by decide)] at hleaf
  | @quaternary run digits =>
    have hleaf := @Leaf.quaternary run [] digits
    rwa [List.append_nil, ← numeral_cons_of_none (b := '%'.toUInt8) (by decide),
      ← numeral_cons_of_none (b := '%'.toUInt8) (by decide)] at hleaf
  | @octal run digits led =>
    have hleaf := @Leaf.octal run [] digits led
    rwa [List.append_nil, ← numeral_cons_of_zero (b := '0'.toUInt8) (by decide)] at hleaf
  | decimal digits led notOctal =>
    have hleaf := @Leaf.decimal text [] digits led notOctal
    rwa [List.append_nil] at hleaf

/-! ## Separators -/

/-- The second text is the first one with separators put in. -/
inductive Separated : List UInt8 → List UInt8 → Prop where
  | nil : Separated [] []
  | byte {text text'} (b : UInt8) (rest : Separated text text') : Separated (b :: text) (b :: text')
  | separator {text text'} (rest : Separated text text') : Separated text ('_'.toUInt8 :: text')

/-- The second text is the first one with separators put in behind its first digit. -/
inductive SeparatedBehind (r : Radix) : List UInt8 → List UInt8 → Prop where
  | before {b text text'} (notDigit : r.digit? b = none) (rest : SeparatedBehind r text text') :
      SeparatedBehind r (b :: text) (b :: text')
  | digit {b text text'} (digit : (r.digit? b).isSome) (rest : Separated text text') :
      SeparatedBehind r (b :: text) (b :: text')

theorem SeparatedBehind.separated {r : Radix} {text text' : List UInt8}
    (h : SeparatedBehind r text text') : Separated text text' := by
  induction h with
  | before notDigit rest ih => exact .byte _ ih
  | digit digit rest => exact .byte _ rest

/-- A run with separators put in is a run. -/
theorem Separated.run {r : Radix} {text text' : List UInt8} (h : Separated text text')
    (hrun : Run r text) : Run r text' := by
  induction h with
  | nil => exact hrun
  | byte b rest ih =>
    obtain ⟨hb, hrest⟩ := List.forall_mem_cons.mp hrun
    exact List.forall_mem_cons.mpr ⟨hb, ih hrest⟩
  | separator rest ih => exact List.forall_mem_cons.mpr ⟨.inl rfl, ih hrun⟩

/-- A separator is no digit of any base. -/
theorem digit?_separator (r : Radix) : r.digit? '_'.toUInt8 = none := by
  cases r with
  | _ => decide

/-- Separators do not count. -/
theorem Separated.numeral_eq {text text' : List UInt8} (h : Separated text text') (r : Radix) :
    numeral r text' = numeral r text := by
  have hdigits : text'.filterMap r.digit? = text.filterMap r.digit? := by
    induction h with
    | nil => rfl
    | byte b rest ih => rw [List.filterMap_cons, List.filterMap_cons, ih]
    | separator rest ih => rw [List.filterMap_cons_none (digit?_separator r), ih]
  rw [numeral, numeral, hdigits]

/-- Before a first digit nothing is put in. -/
theorem SeparatedBehind.digitLed {r : Radix} {text text' : List UInt8}
    (h : SeparatedBehind r text text') (hled : DigitLed r text) : DigitLed r text' := by
  obtain ⟨b, more, rfl, hb⟩ := hled
  cases h with
  | before notDigit rest =>
    rw [notDigit] at hb
    cases hb
  | digit digit rest => exact ⟨b, _, rfl, hb⟩

/-- A text that starts with a digit behind the separators put in has started with one before. -/
theorem Separated.digitLed_of {r : Radix} {text text' : List UInt8} (h : Separated text text')
    (hled : DigitLed r text') : DigitLed r text := by
  obtain ⟨b, more, rfl, hb⟩ := hled
  cases h with
  | byte b rest => exact ⟨b, _, rfl, hb⟩
  | separator rest =>
    rw [digit?_separator] at hb
    cases hb

/-- A text that starts with a digit does so with separators put in, unless one of them is the first
byte. -/
theorem Separated.digitLed {r : Radix} {text text' : List UInt8} (h : Separated text text')
    (hled : DigitLed r text) (hfirst : text'.head? ≠ some '_'.toUInt8) : DigitLed r text' := by
  obtain ⟨b, more, rfl, hb⟩ := hled
  cases h with
  | byte b rest => exact ⟨b, _, rfl, hb⟩
  | separator rest => exact absurd rfl hfirst

/-- A number with separators put in behind its first digit is a number in the same base, unless one
of them hides that it is octal. -/
theorem Number.separated {r : Radix} {text text' : List UInt8} (h : Number r text)
    (hseparated : SeparatedBehind r text text')
    (hoctal : r = .octal → ¬ ['0'.toUInt8, '_'.toUInt8] <+: text') : Number r text' := by
  cases h with
  | hexadecimal digits led =>
    cases hseparated with
    | before notDigit rest => exact .hexadecimal (rest.separated.run digits) (rest.digitLed led)
    | digit digit rest => exact absurd digit (by decide)
  | binary digits =>
    cases hseparated with
    | before notDigit rest => exact .binary (rest.separated.run digits)
    | digit digit rest => exact absurd digit (by decide)
  | quaternary digits =>
    cases hseparated with
    | before notDigit rest =>
      cases rest with
      | before notDigit rest => exact .quaternary (rest.separated.run digits)
      | digit digit rest => exact absurd digit (by decide)
    | digit digit rest => exact absurd digit (by decide)
  | octal digits led =>
    cases hseparated with
    | before notDigit rest => exact absurd notDigit (by decide)
    | @digit _ _ text' digit rest =>
      refine .octal (rest.run digits) (rest.digitLed led fun hfirst => hoctal rfl ?_)
      obtain ⟨more, rfl⟩ := List.head?_eq_some_iff.mp hfirst
      exact ⟨more, rfl⟩
  | decimal digits led notOctal =>
    refine .decimal (hseparated.separated.run digits) (hseparated.digitLed led) ?_
    rintro more rfl hmore
    -- The digit behind the zero has stood there before.
    cases hseparated with
    | before notDigit rest => exact absurd notDigit (by decide)
    | digit digit rest => exact notOctal _ rfl (rest.digitLed_of hmore)

end Expr

/-! ## Operands -/

namespace Operand

open PropellerAsm.Expr (Number SeparatedBehind)

theorem constant_of_number {r : Radix} {text : String} (h : Number r (Utf8.encode text)) :
    Constant text { value := .ofNat 64 (Expr.numeral r (Utf8.encode text)) } :=
  constant_of_parse (parse_of_leaf h.leaf)

/-- A number has the same value with separators anywhere behind its first digit, wherever it is
evaluated; the zero of an octal number must have a digit right behind it. -/
theorem number_with_separators {r : Radix} {text text' : String} (h : Number r (Utf8.encode text))
    (hseparated : SeparatedBehind r (Utf8.encode text) (Utf8.encode text'))
    (hoctal : r = .octal → ¬ ['0'.toUInt8, '_'.toUInt8] <+: Utf8.encode text') :
    ∃ value : Quad, value = .ofNat 64 (Expr.numeral r (Utf8.encode text)) ∧
      Constant text { value } ∧ Constant text' { value } := by
  have hvalue := hseparated.separated.numeral_eq r
  have hconstant := constant_of_number (h.separated hseparated hoctal)
  rw [hvalue] at hconstant
  exact ⟨_, rfl, constant_of_number h, hconstant⟩

/-- Separators inside an octal number and behind it. -/
theorem octal_number_with_separators : Number .octal (Utf8.encode "017") ∧
    SeparatedBehind .octal (Utf8.encode "017") (Utf8.encode "01__7_") ∧
    Constant "017" { value := 15 } ∧ Constant "01__7_" { value := 15 } := by
  have htext : Utf8.encode "017" = ['0', '1', '7'].map Char.toUInt8 := by decide +kernel
  have htext' : Utf8.encode "01__7_" = ['0', '1', '_', '_', '7', '_'].map Char.toUInt8 := by
    decide +kernel
  have hnumber : Number .octal (Utf8.encode "017") := by
    have hdigits : (['1', '7'].map Char.toUInt8).all
        (fun b => (Radix.octal.digit? b).isSome) = true := by decide
    rw [htext]
    exact .octal (fun b hb => .inr (List.all_eq_true.mp hdigits b hb)) ⟨_, _, rfl, by decide⟩
  have hseparated : SeparatedBehind .octal (Utf8.encode "017") (Utf8.encode "01__7_") := by
    rw [htext, htext']
    exact .digit (by decide)
      (.byte _ (.separator (.separator (.byte _ (.separator .nil)))))
  have hoctal : ¬ ['0'.toUInt8, '_'.toUInt8] <+: Utf8.encode "01__7_" := by
    rw [htext']
    decide
  obtain ⟨value, hvalue, hbare, hspaced⟩ :=
    number_with_separators hnumber hseparated fun _ => hoctal
  have hfifteen : (BitVec.ofNat 64 (Expr.numeral .octal (Utf8.encode "017")) : Quad) = 15 := by
    rw [htext]
    decide +kernel
  rw [hfifteen] at hvalue
  subst hvalue
  exact ⟨hnumber, hseparated, hbare, hspaced⟩

/-- A separator right behind the zero of an octal number makes it a decimal one. -/
theorem octal_number_misread : Number .octal (Utf8.encode "010") ∧
    SeparatedBehind .octal (Utf8.encode "010") (Utf8.encode "0_10") ∧
    Constant "010" { value := 8 } ∧ Constant "0_10" { value := 10 } := by
  have htext : Utf8.encode "010" = ['0', '1', '0'].map Char.toUInt8 := by decide +kernel
  have htext' : Utf8.encode "0_10" = ['0', '_', '1', '0'].map Char.toUInt8 := by decide +kernel
  refine ⟨?_, ?_, constant_of_parse (by decide +kernel), constant_of_parse (by decide +kernel)⟩
  · have hdigits : (['1', '0'].map Char.toUInt8).all
        (fun b => (Radix.octal.digit? b).isSome) = true := by decide
    rw [htext]
    exact .octal (fun b hb => .inr (List.all_eq_true.mp hdigits b hb)) ⟨_, _, rfl, by decide⟩
  · rw [htext, htext']
    exact .digit (by decide) (.separator (.byte _ (.byte _ .nil)))

end Operand

end PropellerAsm
