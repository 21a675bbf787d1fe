import Mathlib.Data.List.Basic
import PropellerAsm.Keyword
import PropellerAsm.Proofs.Expr.Phrases
import PropellerAsm.Proofs.Text.Case

/-!
# How keywords are spelled

A keyword in ASCII capitals is the equals sign or a name.  In the source a keyword may hold other
characters too, whose Unicode capitals are ASCII letters; the reader of expressions takes them, and
the equals sign, for no part of an expression.
-/
namespace PropellerAsm

/-! ## Foreign bytes -/

namespace Expr

/-- A byte that has no place in an expression outside strings. -/
def isForeign (b : UInt8) : Bool :=
  0x80 ≤ b.toNat || b == '='.toUInt8

theorem isForeign_of_le {b : UInt8} (h : 0x80 ≤ b.toNat) : isForeign b = true := by
  rw [isForeign, decide_eq_true h, Bool.true_or]

/-- A foreign byte starts no leaf, no operator and no name, and goes on with no name. -/
theorem not_start_of_foreign {b : UInt8} (h : isForeign b = true) :
    (b ∉ signs ∧ isBlank b = false ∧ isDigit b = false ∧ isNameByte b = false) ∧
      b ≠ '$'.toUInt8 ∧ b ≠ '%'.toUInt8 ∧ b ≠ Quoted.quote ∧ b ∉ delimiters :=
  Utf8.forall_byte (p := fun b => isForeign b = true →
    (b ∉ signs ∧ isBlank b = false ∧ isDigit b = false ∧ isNameByte b = false) ∧
      b ≠ '$'.toUInt8 ∧ b ≠ '%'.toUInt8 ∧ b ≠ Quoted.quote ∧ b ∉ delimiters)
    (by decide +kernel) b h

theorem leaf_foreign {b : UInt8} (h : isForeign b = true) (rest : List UInt8) :
    leaf b rest = (.fault (unexpected (b :: rest)), []) := by
  obtain ⟨⟨-, -, hdigit, hname⟩, hdollar, hpercent, hquote, -⟩ := not_start_of_foreign h
  have hzero : ¬ (b = '0'.toUInt8 ∧ rest.head?.any isDigit = true) := by
    rintro ⟨rfl, -⟩
    exact absurd hdigit (by decide)
  have hstart : ¬ isNameStart b = true := by
    intro hstart
    rw [isNameByte, hstart] at hname
    cases hname
  unfold leaf
  rw [if_neg hdollar, if_neg hpercent, if_neg hquote, if_neg hzero, if_neg (by simp [hdigit]),
    if_neg hstart]

theorem operator?_foreign (t : Tier) {b : UInt8} (h : isForeign b = true) (rest : List UInt8) :
    t.operator? (b :: rest) = none := by
  obtain ⟨-, -, -, -, hdelimiter⟩ := not_start_of_foreign h
  cases hop : t.operator? (b :: rest) with
  | none => rfl
  | some found =>
    -- An operator starts with a delimiter.
    obtain ⟨op, more⟩ := found
    obtain ⟨-, htext⟩ := operator?_sound hop
    have hdelimited : Delimited (b :: rest) := htext ▸ spelling_delimited op more
    exact absurd (hdelimited b (by simp)) hdelimiter

/-! ### Capitals -/

theorem isNameByte_upperByte (b : UInt8) : isNameByte (Utf8.upperByte b) = isNameByte b :=
  Utf8.of_upperByte (f := isNameByte) (by decide) b

theorem isDigit_upperByte (b : UInt8) : isDigit (Utf8.upperByte b) = isDigit b :=
  Utf8.of_upperByte (f := isDigit) (by decide) b

theorem isForeign_upperByte (b : UInt8) : isForeign (Utf8.upperByte b) = isForeign b :=
  Utf8.of_upperByte (f := isForeign) (by decide) b

theorem isNameByte_toUpper (c : Char) : isNameByte c.toUpper.toUInt8 = isNameByte c.toUInt8 :=
  Text.of_toUpper (f := fun c => isNameByte c.toUInt8) (by decide) c

theorem isDigit_toUpper (c : Char) : isDigit c.toUpper.toUInt8 = isDigit c.toUInt8 :=
  Text.of_toUpper (f := fun c => isDigit c.toUInt8) (by decide) c

end Expr

/-! ## Keywords -/

namespace Keyword

theorem eq_sign_of_toUpper {c : Char} (h : c.toUpper = '=') : c = '=' := by
  have hupper : (c.toUpper == '=') = true := beq_iff_eq.mpr h
  rw [Text.of_toUpper (f := (· == '=')) (by decide)] at hupper
  exact eq_of_beq hupper

theorem table_bytes : ∀ row ∈ table,
    row.1.toByteArray.data.toList.all (·.toNat < 128) = true ∧
      (row.1 = "=" ∨ row.1.toByteArray.data.toList.all Expr.isNameByte = true) ∧
      row.1.toByteArray.data.toList.head?.any (!Expr.isDigit ·) = true := by
  decide +kernel

/-- The keywords in capitals are names, or the equals sign. -/
theorem table_spelled {row : String × Keyword} (hrow : row ∈ table) :
    (row.1 = "=" ∨ ∀ c ∈ row.1.toList, Expr.isNameByte c.toUInt8 = true) ∧
      ∃ c ∈ row.1.toList.head?, Expr.isDigit c.toUInt8 = false := by
  obtain ⟨hascii, hnames, hhead⟩ := table_bytes row hrow
  obtain ⟨b, hb, hdigit⟩ := (Option.any_eq_true _ _).mp hhead
  rw [Utf8.toList_of_ascii fun b hb => of_decide_eq_true (List.all_eq_true.mp hascii b hb)]
  constructor
  · refine hnames.imp_right fun hnames c hc => ?_
    obtain ⟨b, hb, rfl⟩ := List.mem_map.mp hc
    rw [Expr.toUInt8_ofNat]
    exact List.all_eq_true.mp hnames b hb
  · refine ⟨Char.ofNat b.toNat, ?_, ?_⟩
    · rw [List.head?_map, hb]
      rfl
    · rw [Expr.toUInt8_ofNat]
      simpa using hdigit

theorem exists_row {text : String} (h : (find? text).isSome = true) :
    ∃ row ∈ table, row.1 = Text.upper text := by
  obtain ⟨keyword, hfind⟩ := Option.isSome_iff_exists.mp h
  obtain ⟨before, after, htable, -⟩ := List.lookup_eq_some_iff.mp hfind
  refine ⟨(Text.upper text, keyword), ?_, rfl⟩
  rw [htable]
  exact List.mem_append_right _ List.mem_cons_self

variable {text : String} (h : (find? text).isSome = true)

include h

/-- An ASCII character of a keyword is a character of names or the equals sign. -/
theorem byte_of_ascii {c : Char} (hc : c ∈ text.toList) (hascii : c.toNat < 0x80) :
    Expr.isNameByte c.toUInt8 = true ∨ c = '=' := by
  obtain ⟨row, hrow, hupper⟩ := exists_row h
  have hmem : c.toUpper ∈ row.1.toList := by
    rw [hupper, Text.upper, String.toList_ofList]
    refine List.mem_flatMap.mpr ⟨c, hc, ?_⟩
    rw [Text.upperChar_of_ascii hascii]
    exact List.mem_singleton.mpr rfl
  obtain hsign | hnames := (table_spelled hrow).1
  · rw [hsign] at hmem
    exact .inr (eq_sign_of_toUpper (List.mem_singleton.mp hmem))
  · left
    rw [← Expr.isNameByte_toUpper]
    exact hnames _ hmem

/-- A sign other than the equals sign stands in no keyword. -/
theorem not_mem_of_sign {c : Char} (hascii : c.toNat < 0x80)
    (hname : Expr.isNameByte c.toUInt8 = false) (hne : c ≠ '=') : c ∉ text.toList := by
  intro hc
  obtain hbyte | heq := byte_of_ascii h hc hascii
  · rw [hname] at hbyte
    cases hbyte
  · exact hne heq

/-- The bytes of a keyword are bytes of names or foreign. -/
theorem name_or_foreign {b : UInt8} (hb : b ∈ Utf8.encode text) :
    Expr.isNameByte b = true ∨ Expr.isForeign b = true := by
  obtain ⟨c, hc, hb⟩ := List.mem_flatMap.mp hb
  by_cases hascii : c.toNat < 0x80
  · rw [Utf8.encodeChar_ascii hascii] at hb
    obtain rfl := List.mem_singleton.mp hb
    obtain hname | rfl := byte_of_ascii h hc hascii
    · exact .inl hname
    · exact .inr rfl
  · exact .inr (Expr.isForeign_of_le (Utf8.le_of_mem_encodeChar (by omega) hb))

theorem exists_head : ∃ b rest, Utf8.encode text = b :: rest ∧ Expr.isDigit b = false := by
  obtain ⟨row, hrow, hupper⟩ := exists_row h
  obtain ⟨d, hd, hdigit⟩ := (table_spelled hrow).2
  rw [hupper, Text.upper, String.toList_ofList] at hd
  cases htext : text.toList with
  | nil =>
    rw [htext] at hd
    cases hd
  | cons c cs =>
    rw [htext, List.flatMap_cons] at hd
    have hencode : Utf8.encode text = String.utf8EncodeChar c ++ Utf8.encodeChars cs := by
      rw [Utf8.encode, htext]
      rfl
    by_cases hascii : c.toNat < 0x80
    · rw [Text.upperChar_of_ascii hascii] at hd
      obtain rfl : c.toUpper = d := Option.some.inj hd
      rw [Expr.isDigit_toUpper] at hdigit
      rw [Utf8.encodeChar_ascii hascii] at hencode
      exact ⟨c.toUInt8, Utf8.encodeChars cs, hencode, hdigit⟩
    · obtain ⟨b, more, hchar⟩ := List.exists_cons_of_ne_nil (String.utf8EncodeChar_ne_nil (c := c))
      have hlow : 0x80 ≤ b.toNat := by
        apply Utf8.le_of_mem_encodeChar (c := c) (by omega)
        rw [hchar]
        exact List.mem_cons_self
      rw [hchar] at hencode
      exact ⟨b, more ++ Utf8.encodeChars cs, hencode,
        (Expr.not_start_of_foreign (Expr.isForeign_of_le hlow)).1.2.2.1⟩

/-- A keyword is not empty, and starts like a name or with a foreign byte. -/
theorem head_encode : ∃ b rest, Utf8.encode text = b :: rest ∧ Expr.isDigit b = false ∧
    (Expr.isNameByte b = true ∨ Expr.isForeign b = true) := by
  obtain ⟨b, rest, hencode, hdigit⟩ := exists_head h
  refine ⟨b, rest, hencode, hdigit, name_or_foreign h ?_⟩
  rw [hencode]
  exact List.mem_cons_self

/-- An ASCII keyword that does not start with a foreign byte is a name. -/
theorem names_of_ascii (hascii : ∀ c ∈ text.toList, c.toNat < 0x80)
    (hhead : ∀ b ∈ (Utf8.encode text).head?, Expr.isForeign b = false) :
    ∀ b ∈ Utf8.encode text, Expr.isNameByte b = true := by
  have hchars : Utf8.encode text = text.toList.map Char.toUInt8 := by
    rw [Utf8.encode, Utf8.encodeChars, List.map_eq_flatMap]
    exact List.flatMap_congr fun c hc => Utf8.encodeChar_ascii (hascii c hc)
  have hupper : (Text.upper text).toList = text.toList.map Char.toUpper := by
    rw [Text.upper, String.toList_ofList, List.map_eq_flatMap]
    exact List.flatMap_congr fun c hc => Text.upperChar_of_ascii (hascii c hc)
  obtain ⟨row, hrow, hname⟩ := exists_row h
  rw [← hname] at hupper
  obtain hsign | hnames := (table_spelled hrow).1
  · -- The equals sign is foreign itself.
    rw [hsign] at hupper
    obtain ⟨c, cs, htext, hc, -⟩ := List.map_eq_cons_iff.mp hupper.symm
    obtain rfl := eq_sign_of_toUpper hc
    have hforeign := hhead '='.toUInt8 (by rw [hchars, htext]; rfl)
    exact absurd hforeign (by decide)
  · intro b hb
    rw [hchars] at hb
    obtain ⟨c, hc, rfl⟩ := List.mem_map.mp hb
    rw [← Expr.isNameByte_toUpper]
    apply hnames
    rw [hupper]
    exact List.mem_map_of_mem hc

end Keyword

end PropellerAsm
