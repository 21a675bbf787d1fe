import Mathlib.Data.List.TakeWhile
import PropellerAsm.Proofs.Keyword

/-!
# Expressions that start with a keyword

A keyword is spelled in two cases, and what follows it is the same.  The two texts are read to
trees that differ in their leftmost name only, if all letters of the keyword are ASCII.  Otherwise
the name ends inside the keyword, and both trees stop right behind it.
-/
namespace PropellerAsm

namespace Expr

/-! ## Trees -/

/-- The trees of two spellings of a text that starts with a keyword.  If `ascii` holds, the keyword
is known to be ASCII. -/
inductive Recased (ascii : Prop) : Expr → Expr → Prop where
  | name {x y : String} (keyword : (Keyword.find? x).isSome = true)
      (spelling : Text.capitals x = Text.capitals y) : Recased ascii (.name x) (.name y)
  | binary {l l' : Expr} (op : BinaryOp) (r : Expr) (left : Recased ascii l l') :
      Recased ascii (.binary op l r) (.binary op l' r)
  | followed {l l' : Expr} (f : Fault) (left : Recased ascii l l') :
      Recased ascii (.followed l f) (.followed l' f)
  /-- The keyword starts with a foreign byte. -/
  | foreign {x y : String} (spelling : Text.capitals x = Text.capitals y) :
      Recased ascii (.fault (.invalidExpression x)) (.fault (.invalidExpression y))
  /-- The keyword has a foreign byte behind a name. -/
  | cut {x y rest rest' : String} (foreign : ¬ ascii)
      (spelling : Text.capitals x = Text.capitals y)
      (spellingRest : Text.capitals rest = Text.capitals rest') :
      Recased ascii (.followed (.name x) (.invalidExpression rest))
        (.followed (.name y) (.invalidExpression rest'))

variable {ascii : Prop}

/-- Two readers of a part end with such trees, before the same text. -/
def ReadAlike (ascii : Prop) (x y : Expr × List UInt8) : Prop :=
  Recased ascii x.1 y.1 ∧ x.2 = y.2

theorem chain_recased {t : Tier} {item : List UInt8 → Expr × List UInt8} (bound : Nat)
    {l l' : Expr} (h : Recased ascii l l') (text : List UInt8) :
    ReadAlike ascii (chain t item bound l text) (chain t item bound l' text) := by
  induction bound generalizing l l' text with
  | zero => exact ⟨.followed _ h, rfl⟩
  | succ bound ih =>
    rw [chain, chain]
    split
    · exact ⟨h, rfl⟩
    · exact ih (.binary _ _ h) _

theorem level_recased {t : Tier} {item : List UInt8 → Expr × List UInt8} (bound : Nat)
    {text text' : List UInt8} (h : ReadAlike ascii (item text) (item text')) :
    ReadAlike ascii (level t item bound text) (level t item bound text') := by
  unfold level
  dsimp only
  rw [h.2]
  exact chain_recased bound h.1 _

theorem parse_of_operand {text text' : List UInt8} (hlength : text.length = text'.length)
    (h : ReadAlike ascii (operand (text.length + 1) text) (operand (text.length + 1) text')) :
    Recased ascii (parse text) (parse text') := by
  have hread : ReadAlike ascii (read text) (read text') := by
    unfold read tiers
    rw [← hlength]
    exact level_recased _ (level_recased _ (level_recased _ h))
  unfold parse
  dsimp only
  rw [hread.2]
  split
  · exact hread.1
  · exact .followed _ hread.1

/-! ## Reading stops at a foreign byte -/

theorem level_foreign {t : Tier} {item : List UInt8 → Expr × List UInt8} (bound : Nat)
    {text rest : List UInt8} {e : Expr} {b : UInt8} (hb : isForeign b = true)
    (h : item text = (e, b :: rest)) : level t item (bound + 1) text = (e, b :: rest) := by
  have hskip : skipBlanks (b :: rest) = b :: rest :=
    skipBlanks_cons (not_start_of_foreign hb).1.2.1 rest
  rw [level, h]
  dsimp only
  rw [chain, hskip, operator?_foreign t hb]

theorem parse_cut {text rest : List UInt8} {e : Expr} {b : UInt8} (hb : isForeign b = true)
    (h : operand (text.length + 1) text = (e, b :: rest)) :
    parse text = .followed e (unexpected (b :: rest)) := by
  have hread : read text = (e, b :: rest) :=
    level_foreign _ hb (level_foreign _ hb (level_foreign _ hb h))
  have hskip : skipBlanks (b :: rest) = b :: rest :=
    skipBlanks_cons (not_start_of_foreign hb).1.2.1 rest
  rw [parse, hread]
  dsimp only
  rw [hskip]

/-! ## Names -/

/-- A name at the start of a text is read up to the first byte that does not go on with it. -/
theorem operand_name {b : UInt8} (hname : isNameByte b = true) (hdigit : isDigit b = false)
    (bound : Nat) (more : List UInt8) :
    operand (bound + 1) (b :: more) = nameRun (b :: more) := by
  have hsigns : ∀ c ∈ signs, isNameByte c = false := List.all_iff_forall_prop.mp (by decide)
  have hsign : b ∉ signs := by
    intro hmem
    rw [hsigns b hmem] at hname
    cases hname
  have hstart := isNameStart_of_inName ((isNameByte_iff b).mp hname) hdigit
  have hleaf := operand_leaf Blanks.nil hsign bound more
  rw [List.nil_append] at hleaf
  rw [hleaf, leaf_name hdigit hstart]

theorem takeWhile_upperByte (text : List UInt8) :
    (text.map Utf8.upperByte).takeWhile isNameByte =
      (text.takeWhile isNameByte).map Utf8.upperByte := by
  rw [List.takeWhile_map]
  exact congrArg (fun p => (text.takeWhile p).map _) (funext isNameByte_upperByte)

theorem dropWhile_upperByte (text : List UInt8) :
    (text.map Utf8.upperByte).dropWhile isNameByte =
      (text.dropWhile isNameByte).map Utf8.upperByte := by
  rw [List.dropWhile_map]
  exact congrArg (fun p => (text.dropWhile p).map _) (funext isNameByte_upperByte)

theorem takeWhile_ascii (text : List UInt8) :
    ∀ b ∈ text.takeWhile isNameByte, b.toNat < 0x80 :=
  fun b hb => ((isNameByte_iff b).mp (List.all_eq_true.mp List.all_takeWhile b hb)).lt

theorem capitals_nameRun {text text' : List UInt8}
    (h : text.map Utf8.upperByte = text'.map Utf8.upperByte) :
    Text.capitals (Utf8.ofAscii (text.takeWhile isNameByte)) =
      Text.capitals (Utf8.ofAscii (text'.takeWhile isNameByte)) := by
  rw [Utf8.capitals_ofAscii (takeWhile_ascii text), Utf8.capitals_ofAscii (takeWhile_ascii text'),
    ← takeWhile_upperByte, h, takeWhile_upperByte]

theorem isForeign_recased {b b' : UInt8} (h : Utf8.upperByte b = Utf8.upperByte b')
    (hb : isForeign b = true) : isForeign b' = true := by
  rw [← isForeign_upperByte, ← h, isForeign_upperByte]
  exact hb

/-! ## Two spellings of a text -/

section

variable {text text' : List UInt8} (h : text.map Utf8.upperByte = text'.map Utf8.upperByte)

include h

/-- Texts that start with a foreign byte are refused at once. -/
theorem recased_of_foreign {b : UInt8} {more : List UInt8} (htext : text = b :: more)
    (hb : isForeign b = true) : Recased ascii (parse text) (parse text') := by
  have hread : ∀ {c : UInt8} {more : List UInt8}, isForeign c = true → ∀ bound,
      operand (bound + 1) (c :: more) = (.fault (unexpected (c :: more)), []) := by
    intro c more hc bound
    have hleaf := operand_leaf Blanks.nil (not_start_of_foreign hc).1.1 bound more
    rw [List.nil_append] at hleaf
    rw [hleaf, leaf_foreign hc]
  subst htext
  obtain ⟨b', more', rfl, hhead, -⟩ := List.map_eq_cons_iff.mp h.symm
  refine parse_of_operand (by simpa using congrArg List.length h) ?_
  rw [hread hb, hread (isForeign_recased hhead.symm hb)]
  exact ⟨.foreign (Utf8.decodeLossy_recased h), rfl⟩

variable {b : UInt8} {more : List UInt8} (htext : text = b :: more) (hname : isNameByte b = true)
  (hdigit : isDigit b = false)

include htext hname hdigit

/-- Texts that start with a name start with the same name but for its case. -/
theorem operand_recased (bound : Nat) :
    operand (bound + 1) text = nameRun text ∧ operand (bound + 1) text' = nameRun text' := by
  subst htext
  obtain ⟨b', more', rfl, hhead, -⟩ := List.map_eq_cons_iff.mp h.symm
  have hname' : isNameByte b' = true := by
    rw [← isNameByte_upperByte, hhead, isNameByte_upperByte]
    exact hname
  have hdigit' : isDigit b' = false := by
    rw [← isDigit_upperByte, hhead, isDigit_upperByte]
    exact hdigit
  exact ⟨operand_name hname hdigit bound more, operand_name hname' hdigit' bound more'⟩

/-- Texts in which a foreign byte follows the name are refused behind the name. -/
theorem recased_of_cut {c : UInt8} {after : List UInt8} (hascii : ¬ ascii)
    (hdrop : text.dropWhile isNameByte = c :: after) (hc : isForeign c = true) :
    Recased ascii (parse text) (parse text') := by
  have hrest : (c :: after).map Utf8.upperByte =
      (text'.dropWhile isNameByte).map Utf8.upperByte := by
    rw [← hdrop, ← dropWhile_upperByte, h, dropWhile_upperByte]
  obtain ⟨c', after', hdrop', hhead, -⟩ := List.map_eq_cons_iff.mp hrest.symm
  obtain ⟨hread, hread'⟩ := operand_recased h htext hname hdigit text.length
  obtain ⟨-, hread''⟩ := operand_recased h htext hname hdigit text'.length
  rw [nameRun, hdrop] at hread
  rw [nameRun, hdrop'] at hread''
  rw [parse_cut hc hread, parse_cut (isForeign_recased hhead.symm hc) hread'']
  rw [hdrop'] at hrest
  exact .cut hascii (capitals_nameRun h) (Utf8.decodeLossy_recased hrest)

/-- Texts that go on the same behind the name are read to trees that differ in it only. -/
theorem recased_of_name (hdrop : text.dropWhile isNameByte = text'.dropWhile isNameByte)
    (hkeyword : (Keyword.find? (Utf8.ofAscii (text.takeWhile isNameByte))).isSome = true) :
    Recased ascii (parse text) (parse text') := by
  obtain ⟨hread, hread'⟩ := operand_recased h htext hname hdigit text.length
  refine parse_of_operand (by simpa using congrArg List.length h) ?_
  rw [hread, hread', nameRun, nameRun, hdrop]
  exact ⟨.name hkeyword (capitals_nameRun h), rfl⟩

end

end Expr

/-! ## Keywords -/

namespace Keyword

open PropellerAsm.Expr

theorem find?_recased {text text' : String} (h : Text.capitals text = Text.capitals text') :
    find? text = find? text' := by
  unfold find?
  rw [Text.upper_eq_of_capitals h]

/-- Name bytes up to a delimiter are the name at the start of a text. -/
theorem span_names {bytes rest : List UInt8} (hall : ∀ b ∈ bytes, isNameByte b = true)
    (hrest : Delimited rest) :
    (bytes ++ rest).takeWhile isNameByte = bytes ∧ (bytes ++ rest).dropWhile isNameByte = rest := by
  have hdelimiters : ∀ b ∈ delimiters, isNameByte b = false :=
    List.all_iff_forall_prop.mp (by decide)
  exact span_append hall fun b hb => hdelimiters b (hrest b hb)

theorem names_recased {bytes bytes' : List UInt8}
    (h : bytes.map Utf8.upperByte = bytes'.map Utf8.upperByte)
    (hall : ∀ b ∈ bytes, isNameByte b = true) : ∀ b ∈ bytes', isNameByte b = true := by
  intro b' hb'
  have hmem := List.mem_map_of_mem (f := Utf8.upperByte) hb'
  rw [← h] at hmem
  obtain ⟨b, hb, hupper⟩ := List.mem_map.mp hmem
  rw [← isNameByte_upperByte, ← hupper, isNameByte_upperByte]
  exact hall b hb

/-- The name at the start of a keyword ends with the keyword or before a foreign byte. -/
theorem dropWhile_of_not_names {text : String} (h : (find? text).isSome = true)
    (hall : ¬ ∀ b ∈ Utf8.encode text, isNameByte b = true) (rest : List UInt8) :
    ∃ c after, (Utf8.encode text ++ rest).dropWhile isNameByte = c :: after ∧
      isForeign c = true := by
  cases hdrop : (Utf8.encode text).dropWhile isNameByte with
  | nil => exact absurd (List.dropWhile_eq_nil_iff.mp hdrop) hall
  | cons c after =>
    have hc : c ∈ Utf8.encode text := by
      apply (List.dropWhile_suffix isNameByte).subset
      rw [hdrop]
      exact List.mem_cons_self
    have hnot : isNameByte c = false := by
      have hhead := List.head?_dropWhile_not isNameByte (Utf8.encode text)
      rw [hdrop] at hhead
      simpa using hhead
    refine ⟨c, after ++ rest, ?_, (name_or_foreign h hc).resolve_left ?_⟩
    · rw [List.dropWhile_append, hdrop]
      rfl
    · rw [hnot]
      exact Bool.false_ne_true

/-- A text that starts with a keyword is read alike in both cases. -/
theorem recased_parse {ascii : Prop} {text text' : String} (h : (find? text).isSome = true)
    (hcase : Text.capitals text = Text.capitals text')
    (hascii : ascii → ∀ c ∈ text.toList, c.toNat < 0x80) {rest : List UInt8}
    (hrest : Delimited rest) :
    Recased ascii (parse (Utf8.encode text ++ rest)) (parse (Utf8.encode text' ++ rest)) := by
  have hbytes : (Utf8.encode text).map Utf8.upperByte = (Utf8.encode text').map Utf8.upperByte := by
    rw [← Utf8.encode_capitals, hcase, Utf8.encode_capitals]
  have hupper : (Utf8.encode text ++ rest).map Utf8.upperByte =
      (Utf8.encode text' ++ rest).map Utf8.upperByte := by
    rw [List.map_append, hbytes, List.map_append]
  obtain ⟨b, more, hencode, hdigit, hstart⟩ := head_encode h
  have htext : Utf8.encode text ++ rest = b :: (more ++ rest) := by rw [hencode]; rfl
  by_cases hforeign : isForeign b = true
  · exact recased_of_foreign hupper htext hforeign
  have hname : isNameByte b = true := hstart.resolve_right hforeign
  by_cases hall : ∀ b ∈ Utf8.encode text, isNameByte b = true
  · -- The keyword is a name as a whole, in both spellings.
    obtain ⟨htake, hdrop⟩ := span_names hall hrest
    obtain ⟨-, hdrop'⟩ := span_names (names_recased hbytes hall) hrest
    have hwhole : Utf8.ofAscii (Utf8.encode text) = text := by
      rw [Utf8.ofAscii, Utf8.encode, ← Utf8.chars_of_ascii, String.ofList_toList]
      exact fun b hb => ((isNameByte_iff b).mp (hall b hb)).lt
    refine recased_of_name hupper htext hname hdigit (hdrop.trans hdrop'.symm) ?_
    rw [htake, hwhole]
    exact h
  · -- The name ends inside the keyword.
    have hnotAscii : ¬ ascii := by
      intro hplain
      refine hall (names_of_ascii h (hascii hplain) fun c hc => ?_)
      rw [hencode] at hc
      obtain rfl := Option.some.inj hc
      exact Bool.eq_false_iff.mpr hforeign
    obtain ⟨c, after, hafter, hcut⟩ := dropWhile_of_not_names h hall rest
    exact recased_of_cut hupper htext hname hdigit hnotAscii hafter hcut

end Keyword

end PropellerAsm
