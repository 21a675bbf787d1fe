import PropellerAsm.Proofs.Encoding.Variation
import PropellerAsm.Proofs.Expr.Recased

/-!
# Statements with keywords in another case

A statement is read again with its keywords in another case.  Wherever the text of a word is looked
at behind its classification the two spellings come to the same: they select the same form, they are
joined to the same operands, and operands that start with a keyword have the same value or the same
fault.  A fault behind a name that ends inside a keyword leaves another name recorded; that takes a
keyword with a character outside of ASCII.
-/
namespace PropellerAsm

/-! ## What may differ -/

/-- All characters are ASCII. -/
def Text.IsAscii (s : String) : Prop :=
  ∀ c ∈ s.toList, c.toNat < 0x80

instance (s : String) : Decidable (Text.IsAscii s) :=
  List.decidableBAll (fun c : Char => c.toNat < 0x80) s.toList

/-- The words are the same but for the case of the ASCII letters of a keyword, and but for the
columns where they stand. -/
structure Word.Recased (v w : Word) : Prop where
  token : v.token = w.token
  comma : v.comma = w.comma
  text : v.text = w.text ∨
    v.token.keyword?.isSome = true ∧ Text.capitals v.text = Text.capitals w.text

instance (v w : Word) : Decidable (v.Recased w) :=
  decidable_of_iff (v.token = w.token ∧ v.comma = w.comma ∧ (v.text = w.text ∨
      v.token.keyword?.isSome = true ∧ Text.capitals v.text = Text.capitals w.text))
    ⟨fun h => ⟨h.1, h.2.1, h.2.2⟩, fun h => ⟨h.token, h.comma, h.text⟩⟩

/-- The texts are the same, or they start with a keyword in two cases and go on the same, as plain
words are joined to a keyword.  If `ascii` holds, the keyword is known to be ASCII. -/
inductive OperandText.Recased (ascii : Prop) : String → String → Prop where
  | same (x : String) : Recased ascii x x
  | keyword {x y : String} (rest : String) (keyword : (Keyword.find? x).isSome = true)
      (spelling : Text.capitals x = Text.capitals y) (plain : ascii → Text.IsAscii x)
      (joined : ∀ c ∈ rest.toList.head?, c ∈ OperandText.joinBefore) :
      Recased ascii (x ++ rest) (y ++ rest)

namespace Variation

/-- Keywords may be spelled in another case; those that are, are ASCII if `ascii` holds.  The symbol
tables are the same, except behind a fault about a keyword that is not ASCII. -/
def keywordCase (ascii : Prop) : Variation where
  word v w := v.Recased w ∧ (v.text ≠ w.text →
    (Keyword.find? v.text).isSome = true ∧ (ascii → Text.IsAscii v.text))
  text := OperandText.Recased ascii
  view := Text.capitals
  table := Eq
  stopped t t' := ascii → t = t'
  stop h := fun _ => h

end Variation

/-! ## Texts -/

namespace OperandText

theorem Recased.capitals {ascii : Prop} {x y : String} (h : Recased ascii x y) :
    Text.capitals x = Text.capitals y := by
  cases h with
  | same => rfl
  | keyword rest _ spelling => rw [Text.capitals_append, spelling, Text.capitals_append]

/-- The signs at which words are joined are no letters, and no keyword holds one of them. -/
theorem joinAfter_spelled : ∀ c ∈ joinAfter,
    c.toNat < 0x80 ∧ Expr.isNameByte c.toUInt8 = false ∧ c ≠ '=' :=
  List.all_iff_forall_prop.mp (by decide)

theorem joinBefore_spelled : ∀ c ∈ joinBefore,
    c.toNat < 0x80 ∧ c.toUInt8 ∈ Expr.delimiters :=
  List.all_iff_forall_prop.mp (by decide)

theorem joins_of_capitals {x y : String} (h : Text.capitals x = Text.capitals y) (word : Word) :
    joins x word = joins y word := by
  have hsigns := Text.of_toUpper (f := (joinAfter.contains ·)) (by decide)
  unfold joins
  rw [Text.any_capitals (fun _ => List.getLast?_map) hsigns h]

/-- A keyword goes on with a word only because of how the word starts. -/
theorem joined_of_joins {x : String} (h : (Keyword.find? x).isSome = true) {word : Word}
    (hjoins : joins x word = true) : ∀ c ∈ word.text.toList.head?, c ∈ joinBefore := by
  have hlast : x.toList.getLast?.any (joinAfter.contains ·) = false := by
    cases hc : x.toList.getLast? with
    | none => rfl
    | some c =>
      have hmem : c ∈ x.toList := List.mem_of_getLast? hc
      have hnot : c ∉ joinAfter := by
        intro hsign
        obtain ⟨hascii, hname, hne⟩ := joinAfter_spelled c hsign
        exact Keyword.not_mem_of_sign h hascii hname hne hmem
      simpa using hnot
  unfold joins at hjoins
  rw [hlast, Bool.false_or] at hjoins
  intro c hc
  have hhead := (Bool.and_eq_true_iff.mp hjoins).2
  rw [Option.mem_def.mp hc] at hhead
  simpa using hhead

/-- Recased texts go on with a joined word as recased texts. -/
theorem Recased.append {ascii : Prop} {x y : String} (h : Recased ascii x y) {word : Word}
    (hjoins : joins x word = true) : Recased ascii (x ++ word.text) (y ++ word.text) := by
  cases h with
  | same => exact .same _
  | @keyword x y rest hkeyword spelling plain joined =>
    rw [String.append_assoc, String.append_assoc]
    refine .keyword _ hkeyword spelling plain ?_
    rw [String.toList_append]
    cases hrest : rest.toList with
    | nil =>
      obtain rfl : rest = "" := String.toList_eq_nil_iff.mp hrest
      rw [String.append_empty] at hjoins
      exact joined_of_joins hkeyword hjoins
    | cons c cs =>
      rw [hrest] at joined
      exact joined

end OperandText

/-- What follows a keyword in an operand text is delimited. -/
theorem Expr.delimited_of_joined {rest : String}
    (h : ∀ c ∈ rest.toList.head?, c ∈ OperandText.joinBefore) :
    Delimited (Utf8.encode rest) := by
  rw [Utf8.encode]
  cases hrest : rest.toList with
  | nil => exact Delimited.nil
  | cons c cs =>
    obtain ⟨hascii, hdelimiter⟩ := OperandText.joinBefore_spelled c (h c (by rw [hrest]; rfl))
    rw [Utf8.encodeChars, List.flatMap_cons, Utf8.encodeChar_ascii hascii]
    exact Delimited.cons hdelimiter _

section

variable {x : String} (h : (Keyword.find? x).isSome = true)

include h

/-- A text that starts with a keyword has no sigil. -/
theorem Operand.parse_keyword (rest : String) :
    Operand.parse (x ++ rest) = ({}, Expr.parse (Utf8.encode x ++ Utf8.encode rest)) := by
  obtain ⟨b, more, hencode, -, hbyte⟩ := Keyword.head_encode h
  have hstart : Expr.isBlank b = false ∧ b ≠ '#'.toUInt8 := by
    obtain hname | hforeign := hbyte
    · exact Utf8.forall_byte (p := fun b => Expr.isNameByte b = true →
        Expr.isBlank b = false ∧ b ≠ '#'.toUInt8) (by decide +kernel) b hname
    · obtain ⟨hsigns, hblank, -⟩ := (Expr.not_start_of_foreign hforeign).1
      refine ⟨hblank, ?_⟩
      rintro rfl
      exact hsigns (by decide)
  unfold parse
  rw [Utf8.encode_append, hencode, List.cons_append, Expr.skipBlanks_cons hstart.1]
  unfold Sigil.read
  dsimp only
  rw [if_neg hstart.2]
  dsimp only
  rw [Expr.skipBlanks_cons hstart.1]

/-- A text that starts with a keyword is no string. -/
theorem Directive.stringItem?_keyword (rest : String) :
    Directive.stringItem? (x ++ rest) = none := by
  obtain ⟨b, more, hencode, -, hbyte⟩ := Keyword.head_encode h
  have hquote : b ≠ Quoted.quote := by
    obtain hname | hforeign := hbyte
    · rintro rfl
      exact absurd hname (by decide)
    · exact (Expr.not_start_of_foreign hforeign).2.2.2.1
  unfold Directive.stringItem?
  rw [Utf8.encode_append, hencode, List.cons_append]
  exact if_neg fun hb => hquote hb.1

end

/-! ## Pointers -/

namespace Pointer

/-- What stands before the first bracket belongs to the name. -/
theorem splitIndex_append {name : List Char} (h : '[' ∉ name) (rest : List Char) :
    splitIndex (name ++ rest) = (name ++ (splitIndex rest).1, (splitIndex rest).2) := by
  have hname : ∀ c ∈ name, (c != '[') = true := by
    intro c hc
    rw [bne_iff_ne]
    rintro rfl
    exact h hc
  have hbracket : (name ++ rest).contains '[' = rest.contains '[' := by
    simp [h]
  unfold splitIndex
  rw [hbracket]
  cases hrest : rest.contains '[' with
  | false => rfl
  | true =>
    have hne : rest ≠ [] := by
      rintro rfl
      cases hrest
    rw [List.getLast?_append_of_ne_nil name hne, List.takeWhile_append_of_pos hname,
      List.dropWhile_append_of_pos hname]
    split
    · rfl
    · rfl

theorem parse?_recased {x y : String} (h : (Keyword.find? x).isSome = true)
    (hcase : Text.capitals x = Text.capitals y) (rest : String) :
    parse? (x ++ rest) = parse? (y ++ rest) := by
  have hbracket : ∀ {z : String}, (Keyword.find? z).isSome = true → '[' ∉ z.toList :=
    fun hz => Keyword.not_mem_of_sign hz (by decide) (by decide) (by decide)
  have hy : (Keyword.find? y).isSome = true := Keyword.find?_recased hcase ▸ h
  have hname : x.toList.map Char.toUpper = y.toList.map Char.toUpper := by
    rw [← Text.toList_capitals, hcase, Text.toList_capitals]
  unfold parse?
  rw [String.toList_append, String.toList_append, splitIndex_append (hbracket h),
    splitIndex_append (hbracket hy)]
  dsimp only
  rw [List.map_append, List.map_append, hname]

end Pointer

/-! ## Values -/

/-- Names with the same spelling but for case are both symbols, or mean the same register or
parameter, or are reserved. -/
theorem Expr.lockstep_recased {ascii : Prop} {e e' : Expr} (h : Recased ascii e e')
    (ctx : Context) :
    Lockstep (Variation.keywordCase ascii).tables Eq (e.eval ctx) (e'.eval ctx) := by
  induction h with
  | @name x y keyword spelling =>
    unfold eval Context.resolve
    rw [← Keyword.find?_recased spelling]
    split
    · exact lockstep_pure rfl
    · exact lockstep_pure rfl
    · exact lockstep_throw (congrArg Fault.reservedWord spelling)
    · next hnone =>
      rw [hnone] at keyword
      cases keyword
  | @binary l l' op r _ ih =>
    have hr := Expr.lockstep_eval (C := (Variation.keywordCase ascii).tables)
      (SymbolTable.coupled_eq ctx.line) (fun _ => rfl) r
    refine ih.bind_same fun x => hr.bind_same fun y => ?_
    cases op.apply x y with
    | ok z => exact lockstep_pure rfl
    | error f => exact lockstep_throw rfl
  | followed f _ ih => exact ih.bind_same fun _ => lockstep_throw rfl
  | foreign spelling => exact lockstep_throw (congrArg Fault.invalidExpression spelling)
  | @cut x y rest rest' foreign spelling spellingRest =>
    rintro t _ rfl
    have hstopped : ∀ t t' : SymbolTable, (Variation.keywordCase ascii).tables.stopped t t' :=
      fun _ _ hascii => absurd hascii foreign
    have hrest := congrArg Fault.invalidExpression spellingRest
    unfold eval eval Context.resolve
    rw [← Keyword.find?_recased spelling]
    -- Either name is resolved, and then the rest is refused, or the name is reserved.
    split
    · exact .error hrest (hstopped _ _)
    · exact .error hrest (hstopped _ _)
    · exact .error (congrArg Fault.reservedWord spelling) (hstopped _ _)
    · exact .error hrest (hstopped _ _)

namespace Variation

theorem lockstep_evaluate {ascii : Prop} {x y : String} (h : OperandText.Recased ascii x y)
    (ctx : Context) :
    Lockstep (keywordCase ascii).tables Eq (Operand.evaluate ctx x) (Operand.evaluate ctx y) := by
  cases h with
  | same =>
    exact Operand.lockstep_evaluate (SymbolTable.coupled_eq ctx.line) (fun _ => rfl) x
  | keyword rest hkeyword spelling plain joined =>
    have hkeyword' := Keyword.find?_recased spelling ▸ hkeyword
    have hparse := Keyword.recased_parse hkeyword spelling plain (Expr.delimited_of_joined joined)
    unfold Operand.evaluate
    rw [Operand.parse_keyword hkeyword, Operand.parse_keyword hkeyword']
    exact (Expr.lockstep_recased hparse ctx).bind_same fun _ => lockstep_pure rfl

/-- The case of keywords makes no difference in a statement. -/
theorem sound_keywordCase (ascii : Prop) (line : Nat) : (keywordCase ascii).Sound line line where
  token h := h.1.token
  comma h := h.1.comma
  text := by
    intro v w h
    by_cases htext : v.text = w.text
    · rw [htext]
      exact .same _
    · obtain ⟨hkeyword, hascii⟩ := h.2 htext
      have hspelling := (h.1.text.resolve_left htext).2
      have hjoined := OperandText.Recased.keyword "" hkeyword hspelling hascii (by simp)
      rwa [String.append_empty, String.append_empty] at hjoined
  plain := by
    intro v w h hplain
    refine h.1.text.resolve_right fun hkeyword => ?_
    rw [hplain] at hkeyword
    cases hkeyword.1
  same := .same
  view h := h.capitals
  view_append := Text.capitals_append
  upper h := Text.upper_eq_of_capitals h.capitals
  sigil := by
    intro x y h
    have hany : ∀ o : Option Char, (o == some '#') = o.any (· == '#') := by
      rintro (_ | c)
      · rfl
      · rfl
    have hsign := Text.of_toUpper (f := (· == '#')) (by decide)
    rw [hany, hany, Text.any_capitals (fun _ => List.head?_map) hsign h.capitals]
  joins h := OperandText.joins_of_capitals h.capitals
  append h _ hjoins := h.append hjoins
  pointer := by
    intro x y h
    cases h with
    | same => rfl
    | keyword rest hkeyword spelling => exact Pointer.parse?_recased hkeyword spelling rest
  string := by
    intro x y h
    cases h with
    | same => rfl
    | keyword rest hkeyword spelling =>
      rw [Directive.stringItem?_keyword hkeyword,
        Directive.stringItem?_keyword (Keyword.find?_recased spelling ▸ hkeyword)]
  value h name := (SymbolTable.coupled_eq line).value h name
  evaluate := by
    rintro x y h ctx rfl
    exact lockstep_evaluate h ctx

end Variation

end PropellerAsm
