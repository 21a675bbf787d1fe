import PropellerAsm.Proofs.Encoding.Constant
import PropellerAsm.Proofs.Encoding.Touched

/-!
# The items of data lists

A data list is made of texts in quotes and of numbers.  A text is written with a backslash before
every quote and every backslash in it.  Whoever splits the line looks at its characters, and whoever
reads the text looks at its bytes; both find the closing quote at the same place, since a quote or
a backslash is never a byte of a longer character.
-/
namespace PropellerAsm

/-! ## Bytes of numbers -/

/-- Of a number only the low bytes are stored. -/
theorem Bytes.littleEndian_mod (size n : Nat) :
    littleEndian size (n % 256 ^ size) = littleEndian size n := by
  induction size generalizing n with
  | zero => rfl
  | succ size ih =>
    have hlow : UInt8.ofNat (n % 256 ^ (size + 1)) = UInt8.ofNat n := by
      apply UInt8.toNat_inj.mp
      rw [UInt8.toNat_ofNat', UInt8.toNat_ofNat']
      exact Nat.mod_mod_of_dvd n (Dvd.intro_left (256 ^ size) rfl)
    have hhigh : n % 256 ^ (size + 1) / 256 = n / 256 % 256 ^ size := by
      rw [Nat.pow_succ, Nat.mul_comm, Nat.mod_mul_right_div_self]
    rw [littleEndian, littleEndian, hlow, hhigh, ih]

namespace Directive

/-- The bytes of an item, for the directives that store data. -/
def itemSize? : Directive → Option Nat
  | byte => some 1
  | word => some 2
  | long => some 4
  | _ => none

/-- An item of a data list. -/
inductive Item where
  | text (content : String)
  | number (value : Quad)

namespace Item

/-- The bytes that an item stands for: one number for each byte of a text, and of a number as many
bytes as fit. -/
def bytes (size : Nat) : Item → List UInt8
  | text content => (Utf8.encode content).flatMap fun b => Bytes.littleEndian size b.toNat
  | number value => Bytes.littleEndian size (value.toNat % 256 ^ size)

/-- A character between quotes. -/
def quoted (c : Char) : List Char :=
  if c = '"' ∨ c = '\\' then ['\\', c] else [c]

/-- The spellings of an item: a text without tabs in quotes, or a run of hexadecimal digits behind
a dollar sign. -/
inductive Spelled : Item → List Char → Prop where
  | text {content : String} (tabless : '\t' ∉ content.toList) :
      Spelled (.text content) ('"' :: (content.toList.flatMap quoted ++ ['"']))
  | number {digits : List Char} (run : Expr.Run .hexadecimal (Utf8.encodeChars digits))
      (led : Expr.DigitLed .hexadecimal (Utf8.encodeChars digits)) :
      Spelled (.number (.ofNat 64 (Expr.numeral .hexadecimal (Utf8.encodeChars digits))))
        ('$' :: digits)

/-- Every number has a spelling. -/
theorem spelled_toDigits (value : Quad) :
    Spelled (.number value) ('$' :: Nat.toDigits 16 value.toNat) := by
  obtain ⟨hrun, hled, hvalue⟩ := Expr.run_toDigits value.toNat
  have hspelled := Spelled.number hrun hled
  rwa [hvalue, BitVec.ofNat_toNat, BitVec.setWidth_eq] at hspelled

/-! ## Texts -/

/-- Only the quote and the backslash have these bytes. -/
theorem plain_bytes {c : Char} (hc : ¬ (c = '"' ∨ c = '\\')) :
    ∀ b ∈ String.utf8EncodeChar c, b ≠ '"'.toUInt8 ∧ b ≠ '\\'.toUInt8 := by
  obtain ⟨hquote, hescape⟩ := not_or.mp hc
  intro b hb
  by_cases hascii : c.toNat < 0x80
  · rw [Utf8.encodeChar_ascii hascii] at hb
    obtain rfl := List.mem_singleton.mp hb
    have hback : ∀ d : Char, d.toNat < 0x80 → c.toUInt8 = d.toUInt8 → c = d := by
      intro d hd heq
      have hbyte : c.toNat % 256 = d.toNat % 256 := congrArg UInt8.toNat heq
      rw [Nat.mod_eq_of_lt (by omega), Nat.mod_eq_of_lt (by omega)] at hbyte
      exact Char.toNat_inj.mp hbyte
    exact ⟨mt (hback '"' (by decide)) hquote, mt (hback '\\' (by decide)) hescape⟩
  · have hle := Utf8.le_of_mem_encodeChar (Nat.le_of_not_lt hascii) hb
    constructor
    · rintro rfl
      exact absurd hle (by decide)
    · rintro rfl
      exact absurd hle (by decide)

/-- Bytes that mean nothing but themselves come before the rest of a quotation. -/
theorem quotation_append {bytes content text rest : List UInt8}
    (hbytes : ∀ b ∈ bytes, b ≠ '"'.toUInt8 ∧ b ≠ '\\'.toUInt8)
    (h : Expr.Quotation content text rest) :
    Expr.Quotation (bytes ++ content) (bytes ++ text) rest := by
  induction bytes with
  | nil => exact h
  | cons b bytes ih =>
    obtain ⟨hquote, hescape⟩ := hbytes b List.mem_cons_self
    exact .byte hquote hescape (ih fun c hc => hbytes c (List.mem_cons_of_mem _ hc))

/-- The bytes of a text in quotes spell its bytes. -/
theorem quotation_quoted (content : List Char) (rest : List UInt8) :
    Expr.Quotation (Utf8.encodeChars content)
      (Utf8.encodeChars (content.flatMap quoted) ++ '"'.toUInt8 :: rest) rest := by
  induction content with
  | nil => exact .closed
  | cons c content ih =>
    have hcontent : Utf8.encodeChars (c :: content) =
        String.utf8EncodeChar c ++ Utf8.encodeChars content := rfl
    rw [List.flatMap_cons, Utf8.encodeChars_append, List.append_assoc, hcontent]
    by_cases hc : c = '"' ∨ c = '\\'
    · have hquoted : Utf8.encodeChars (quoted c) = '\\'.toUInt8 :: String.utf8EncodeChar c := by
        rw [quoted, if_pos hc]
        exact congrArg _ (List.flatMap_singleton _ _)
      have hchar : ∃ b, String.utf8EncodeChar c = [b] := by
        obtain rfl | rfl := hc
        · exact ⟨_, Utf8.encodeChar_ascii (by decide)⟩
        · exact ⟨_, Utf8.encodeChar_ascii (by decide)⟩
      obtain ⟨b, hb⟩ := hchar
      rw [hquoted, hb]
      exact .escaped ih
    · have hquoted : Utf8.encodeChars (quoted c) = String.utf8EncodeChar c := by
        rw [quoted, if_neg hc]
        exact List.flatMap_singleton _ _
      rw [hquoted]
      exact quotation_append (plain_bytes hc) ih

theorem stringItem?_quoted (content : String) :
    stringItem? (String.ofList ('"' :: (content.toList.flatMap quoted ++ ['"']))) =
      some (Utf8.encode content) := by
  have hbytes : Utf8.encode (String.ofList ('"' :: (content.toList.flatMap quoted ++ ['"']))) =
      Quoted.quote :: (Utf8.encodeChars (content.toList.flatMap quoted) ++ ['"'.toUInt8]) := by
    rw [Utf8.encode, String.toList_ofList]
    exact congrArg _ (Utf8.encodeChars_append _ _)
  have hbody := Expr.body_eq_iff.mpr (quotation_quoted content.toList [])
  have hmore : Utf8.encodeChars (content.toList.flatMap quoted) ++ ['"'.toUInt8] ≠ [] := by simp
  unfold stringItem?
  rw [hbytes]
  dsimp only
  rw [if_pos ⟨rfl, hmore⟩, Quoted.read, if_pos rfl, hbody]
  rfl

/-! ## Items -/

/-- An item starts with a quote or a dollar sign. -/
theorem Spelled.head {item : Item} {chars : List Char} (h : item.Spelled chars) :
    ∃ c cs, chars = c :: cs ∧ (c = '"' ∨ c = '$') := by
  cases h with
  | text _ => exact ⟨_, _, rfl, .inl rfl⟩
  | number _ _ => exact ⟨_, _, rfl, .inr rfl⟩

/-- An item is no keyword. -/
theorem Spelled.ofText {item : Item} {text : String} (h : item.Spelled text.toList) :
    Token.ofText text = .plain := by
  obtain ⟨c, cs, hchars, hc⟩ := h.head
  have hmem : c ∈ text.toList := by
    rw [hchars]
    exact List.mem_cons_self
  have hnone : Keyword.find? text = none := by
    obtain rfl | rfl := hc
    · exact Keyword.find?_of_sign (by decide) (by decide) (by decide) hmem
    · exact Keyword.find?_of_sign (by decide) (by decide) (by decide) hmem
  rw [Token.ofText, hnone]

/-- An item gives its bytes wherever it is read. -/
theorem Spelled.item {item : Item} {text : String} (h : item.Spelled text.toList) (ctx : Context)
    (size : Nat) (c : Cursor) : Directive.item ctx size text c = .ok (item.bytes size) c := by
  generalize hchars : text.toList = chars at h
  obtain rfl : text = String.ofList chars := by
    rw [← hchars, String.ofList_toList]
  cases h with
  | @text content _ =>
    unfold Directive.item
    rw [stringItem?_quoted]
    rfl
  | @number digits run led =>
    -- A hexadecimal number is no string, and as an operand it is a constant.
    have hbytes : Utf8.encode (String.ofList ('$' :: digits)) =
        '$'.toUInt8 :: (Utf8.encodeChars digits ++ []) := by
      rw [Utf8.encode, String.toList_ofList, List.append_nil]
      rfl
    have hleaf := @Expr.Leaf.hexadecimal _ [] run led
    rw [← hbytes] at hleaf
    have hparse := Operand.parse_of_leaf hleaf
    have hstring : stringItem? (String.ofList ('$' :: digits)) = none := by
      unfold stringItem?
      rw [hbytes]
      exact if_neg fun hquote => absurd hquote.1 (by decide)
    have hconstant : Operand.Constant (String.ofList ('$' :: digits))
        { value := .ofNat 64 (Expr.numeral .hexadecimal (Utf8.encodeChars digits)) } :=
      Operand.constant_of_parse hparse
    have hevaluate := Encoder.evaluate_of_ok (hconstant ctx c.symbols)
    unfold Directive.item
    rw [hstring]
    dsimp only
    rw [bind_of_ok hevaluate]
    rw [bytes, Bytes.littleEndian_mod]
    rfl

end Item

/-! ## Lists -/

/-- The words of the items, with a comma behind every one but the last. -/
inductive Lists : List Item → List Word → Prop where
  | last {item : Item} {word : Word} (spelled : item.Spelled word.text.toList)
      (token : word.token = .ofText word.text) (comma : word.comma = false) :
      Lists [item] [word]
  | more {item : Item} {items : List Item} {word : Word} {words : List Word}
      (spelled : item.Spelled word.text.toList) (token : word.token = .ofText word.text)
      (comma : word.comma = true) (rest : Lists items words) :
      Lists (item :: items) (word :: words)

variable {items : List Item} {words : List Word}

theorem Lists.token (h : Lists items words) :
    ∀ word ∈ words, word.token = .ofText word.text := by
  induction h with
  | last spelled token comma => exact List.forall_mem_singleton.mpr token
  | more spelled token comma rest ih => exact List.forall_mem_cons.mpr ⟨token, ih⟩

/-- A comma or the end keeps the words of items apart. -/
theorem take?_item {item : Item} {word : Word} (hspelled : item.Spelled word.text.toList)
    (htoken : word.token = .ofText word.text) (hends : word.comma = true ∨ words = []) :
    OperandText.take? (word :: words) = some (⟨word.text, word.comma⟩, words) := by
  have hflag : word.token.isFlag = false := by
    rw [htoken, hspelled.ofText]
    rfl
  have hextend : OperandText.extend ⟨word.text, word.comma⟩ words =
      (⟨word.text, word.comma⟩, words) := by
    cases words with
    | nil => rfl
    | cons next more =>
      have hcomma := hends.resolve_right (List.cons_ne_nil _ _)
      rw [OperandText.extend, if_neg (by simp [hcomma])]
  rw [OperandText.take?, if_neg (by simp [hflag]), hextend]

theorem Lists.read (h : Lists items words) (ctx : Context) (size : Nat) {bound : Nat}
    (hbound : words.length ≤ bound) {c : Cursor} (hc : c.words = words) :
    Directive.items ctx size bound c =
      .ok (items.flatMap (Item.bytes size)) { c with words := [] } := by
  induction h generalizing bound c with
  | @last item word spelled token comma =>
    obtain ⟨bound, rfl⟩ := Nat.exists_eq_succ_of_ne_zero (Nat.ne_zero_of_lt hbound)
    have htake := take?_item spelled token (.inr rfl)
    rw [← hc] at htake
    rw [Directive.items, bind_of_ok (Encoder.operand_of_take htake),
      bind_of_ok (spelled.item ctx size _), if_neg (by simp [comma])]
    simp
  | @more item items word words spelled token comma rest ih =>
    obtain ⟨bound, rfl⟩ := Nat.exists_eq_succ_of_ne_zero (Nat.ne_zero_of_lt hbound)
    have hends : word.comma = true ∨ words = [] := .inl comma
    have htake := take?_item spelled token hends
    rw [← hc] at htake
    have hrest := @ih bound (Nat.le_of_succ_le_succ hbound) { c with words := words } rfl
    rw [Directive.items, bind_of_ok (Encoder.operand_of_take htake),
      bind_of_ok (spelled.item ctx size _), if_pos comma, bind_of_ok hrest]
    rfl

/-- A data list gives the bytes of its items, one behind the other. -/
theorem Lists.data (h : Lists items words) (ctx : Context) (size : Nat) (t : SymbolTable) :
    Directive.data ctx size words t = .ok (items.flatMap (Item.bytes size)) t := by
  have hitems := h.read ctx size (Nat.le_succ _) (c := { words, symbols := t }) rfl
  have hfinish : Encoder.finish { words := [], symbols := t } =
      .ok () { words := [], symbols := t } := Encoder.finish_of_nil rfl
  have hlist : (do
      let bytes ← Directive.items ctx size (words.length + 1)
      Encoder.finish
      return bytes : Encoder (List UInt8)) { words, symbols := t } =
        .ok (items.flatMap (Item.bytes size)) { words := [], symbols := t } :=
    (bind_of_ok hitems).trans (bind_of_ok hfinish)
  exact bind_of_ok (Encoder.run_eq_ok_iff.mpr ⟨hlist, rfl⟩)

/-- A directive for data stores the bytes of its items. -/
theorem Lists.effect (h : Lists items words) {d : Directive} {size : Nat}
    (hsize : d.itemSize? = some size) {first : Word}
    (hfirst : first.token = .keyword (.directive d)) (ctx : Context) (labelled : Bool)
    (t : SymbolTable) :
    Statement.effect ctx labelled (first :: words) t =
      .ok (.data (items.flatMap (Item.bytes size))) t := by
  have htake : Statement.takeCondition (first :: words) = .ok ({}, first :: words) := by
    rw [Statement.takeCondition, hfirst]
  have hdirective : Statement.directive ctx words d t =
      .ok (.data (items.flatMap (Item.bytes size))) t := by
    have hbytes := h.data ctx size t
    cases d with
    | byte => cases hsize; exact bind_of_ok hbytes
    | word => cases hsize; exact bind_of_ok hbytes
    | long => cases hsize; exact bind_of_ok hbytes
    | _ => cases hsize
  unfold Statement.effect
  rw [htake]
  dsimp only
  rw [hfirst]
  exact hdirective

end Directive

end PropellerAsm
