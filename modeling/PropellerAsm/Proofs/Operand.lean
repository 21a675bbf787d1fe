import PropellerAsm.Proofs.Expr.Evaluation

/-!
# The texts of operands

An operand is a mark and an expression, with blanks before both and behind them.  No expression
starts with a number sign or a backslash, so the mark is read as it is written, and the whole text
has a value if and only if it spells an operand whose expression has a meaning.
-/
namespace PropellerAsm

open PropellerAsm.Expr (Blanks Derives skipBlanks skipBlanks_append skipBlanks_cons isBlank
  isBlank_iff)

/-! ## Blanks before a phrase -/

theorem Expr.Blanks.append {blanks more : List UInt8} (h : Blanks blanks) (hmore : Blanks more) :
    Blanks (blanks ++ more) := by
  intro b hb
  rcases List.mem_append.mp hb with hb | hb
  · exact h b hb
  · exact hmore b hb

/-- Blanks may be put before every phrase. -/
theorem Expr.Derives.append {p : Phrase} {e : Expr} {text rest : List UInt8}
    (h : Derives p e text rest) {blanks : List UInt8} (hblanks : Blanks blanks) :
    Derives p e (blanks ++ text) rest := by
  induction h with
  | single _ ih => exact .single ih
  | joined spaced _ right ih _ => exact .joined spaced ih right
  | unary spaced sign_spelled inner _ =>
    rw [← List.append_assoc]
    exact .unary (hblanks.append spaced) sign_spelled inner
  | group spaced closed inner _ =>
    rw [← List.append_assoc]
    exact .group (hblanks.append spaced) closed inner
  | leaf spaced spelled =>
    rw [← List.append_assoc]
    exact .leaf (hblanks.append spaced) spelled

/-! ## Marks -/

/-- The bytes that marks are made of. -/
def Sigil.bytes : List UInt8 := ['#'.toUInt8, '\\'.toUInt8]

/-- A phrase may be written without its blanks, and does not start with a mark then. -/
theorem Expr.Derives.start {p : Phrase} {e : Expr} {text rest : List UInt8}
    (h : Derives p e text rest) :
    ∃ b more, skipBlanks text = b :: more ∧ b ∉ Sigil.bytes ∧ Derives p e (b :: more) rest := by
  induction h with
  | single _ ih =>
    obtain ⟨b, more, hskip, hb, hderives⟩ := ih
    exact ⟨b, more, hskip, hb, .single hderives⟩
  | joined spaced _ right ih _ =>
    obtain ⟨b, more, hskip, hb, hderives⟩ := ih
    exact ⟨b, more, hskip, hb, .joined spaced hderives right⟩
  | @unary op sign e blanks text rest spaced sign_spelled inner _ =>
    -- A sign of an operator is neither a blank nor part of a mark.
    have hsign : isBlank sign = false ∧ sign ∉ Sigil.bytes := by
      cases op with
      | negate =>
        obtain rfl := sign_spelled
        decide
      | complement =>
        obtain rfl | rfl := sign_spelled
        · decide
        · decide
    refine ⟨sign, text, ?_, hsign.2, .unary .nil sign_spelled inner⟩
    rw [skipBlanks_append spaced, skipBlanks_cons hsign.1]
  | @group e blanks text before rest spaced closed inner _ =>
    refine ⟨'('.toUInt8, text, ?_, by decide, .group .nil closed inner⟩
    rw [skipBlanks_append spaced, skipBlanks_cons (by decide)]
  | @leaf e blanks text rest spaced spelled =>
    obtain ⟨b, more, rfl, hb⟩ := spelled.start
    refine ⟨b, more, ?_, ?_, .leaf .nil spelled⟩
    · rw [skipBlanks_append spaced, skipBlanks_cons (Expr.not_isBlank_of_not_sign hb)]
    · have hsub : ∀ c ∈ Sigil.bytes, c ∈ Expr.signs := List.all_iff_forall_prop.mp (by decide)
      exact fun hmem => hb (hsub b hmem)

/-- No phrase starts with a byte of a mark, with or without blanks before it. -/
theorem Expr.Derives.head_not_mark {p : Phrase} {e : Expr} {text rest : List UInt8}
    (h : Derives p e text rest) {c : UInt8} {more : List UInt8} (htext : text = c :: more) :
    c ∉ Sigil.bytes := by
  obtain ⟨b, after, hskip, hb, -⟩ := h.start
  rw [htext] at hskip
  cases hc : isBlank c with
  | false =>
    rw [skipBlanks_cons hc] at hskip
    obtain ⟨rfl, -⟩ := List.cons.inj hskip
    exact hb
  | true =>
    -- Before a phrase that starts with a blank stands no mark either.
    rw [isBlank_iff] at hc
    obtain rfl | rfl := hc
    · decide
    · decide

namespace Sigil

/-- The number signs of an immediate. -/
def lead (augmented : Bool) : List UInt8 :=
  if augmented then ['#'.toUInt8, '#'.toUInt8] else ['#'.toUInt8]

theorem spelled_lead (augmented : Bool) :
    Spelled { immediate := true, augmented } (lead augmented) := by
  cases augmented with
  | false => exact .immediate
  | true => exact .augmented

theorem spelled_lead_absolute (augmented : Bool) :
    Spelled { immediate := true, absolute := true, augmented }
      (lead augmented ++ ['\\'.toUInt8]) := by
  cases augmented with
  | false => exact .absolute
  | true => exact .augmentedAbsolute

theorem absolute?_sound {augmented : Bool} {text rest : List UInt8} {sigil : Sigil}
    (h : absolute? augmented text = (sigil, rest)) :
    ∃ mark, sigil.Spelled mark ∧ lead augmented ++ text = mark ++ rest := by
  unfold absolute? at h
  split at h
  · split at h
    · rename_i b more hb
      obtain ⟨rfl, rfl⟩ := Prod.mk.inj h
      refine ⟨lead augmented ++ ['\\'.toUInt8], spelled_lead_absolute augmented, ?_⟩
      rw [hb, List.append_assoc]
      rfl
    · obtain ⟨rfl, rfl⟩ := Prod.mk.inj h
      exact ⟨lead augmented, spelled_lead augmented, rfl⟩
  · obtain ⟨rfl, rfl⟩ := Prod.mk.inj h
    exact ⟨lead augmented, spelled_lead augmented, rfl⟩

/-- The mark that is read is one that the text starts with. -/
theorem read_sound {text rest : List UInt8} {sigil : Sigil} (h : read text = (sigil, rest)) :
    ∃ mark, sigil.Spelled mark ∧ text = mark ++ rest := by
  cases text with
  | nil =>
    obtain ⟨rfl, rfl⟩ := Prod.mk.inj h
    exact ⟨[], .plain, rfl⟩
  | cons b more =>
    unfold read at h
    dsimp only at h
    split at h
    · rename_i hb
      subst hb
      split at h
      · split at h
        · rename_i c after hc
          subst hc
          exact absolute?_sound h
        · exact absolute?_sound h
      · exact absolute?_sound h
    · obtain ⟨rfl, rfl⟩ := Prod.mk.inj h
      exact ⟨[], .plain, rfl⟩

theorem absolute?_of_not_mark {body : List UInt8}
    (hbody : ∀ c more, body = c :: more → c ∉ bytes) (augmented : Bool) :
    absolute? augmented body = ({ immediate := true, augmented }, body) := by
  cases body with
  | nil => rfl
  | cons c more =>
    have hc : c ≠ '\\'.toUInt8 := by
      rintro rfl
      exact hbody _ _ rfl (by decide)
    rw [absolute?, if_neg hc]

/-- A mark before a text that does not start with one is read as it is written. -/
theorem read_complete {sigil : Sigil} {mark body : List UInt8} (hmark : sigil.Spelled mark)
    (hbody : ∀ c more, body = c :: more → c ∉ bytes) : read (mark ++ body) = (sigil, body) := by
  have hne : ∀ c more, body = c :: more → c ≠ '#'.toUInt8 := by
    rintro c more h rfl
    exact hbody _ _ h (by decide)
  -- Each mark is read to its end, and the text behind it offers no more of one.
  cases hmark with
  | plain =>
    cases body with
    | nil => rfl
    | cons c more => exact if_neg (hne c more rfl)
  | immediate =>
    have hbare := absolute?_of_not_mark hbody false
    cases body with
    | nil => rfl
    | cons c more => exact (if_neg (hne c more rfl)).trans hbare
  | augmented => exact absolute?_of_not_mark hbody true
  | absolute => rfl
  | augmentedAbsolute => rfl

end Sigil

/-! ## Operands -/

namespace Operand

/-- A text whose tree holds no fault spells an operand. -/
theorem spelled_of_parse {text : String} {sigil : Sigil} {e : Expr} (h : parse text = (sigil, e))
    (he : e.wellFormed = true) : Spelled sigil e (Utf8.encode text) := by
  unfold parse at h
  rcases hread : Sigil.read (skipBlanks (Utf8.encode text)) with ⟨sigil', rest⟩
  rw [hread] at h
  dsimp only at h
  split at h
  · obtain ⟨-, rfl⟩ := Prod.mk.inj h
    cases he
  · rename_i b more hrest
    obtain ⟨rfl, hparse⟩ := Prod.mk.inj h
    obtain ⟨leading, hleading, htext⟩ := Expr.exists_blanks (Utf8.encode text)
    obtain ⟨mark, hmark, hskip⟩ := Sigil.read_sound hread
    obtain ⟨blanks, hblanks, hbody⟩ := Expr.exists_blanks rest
    obtain ⟨after, hafter, hderives⟩ := Expr.parse_sound hparse he
    -- The blanks between the mark and the expression belong to its first operand.
    have hwhole := hderives.append hblanks
    rw [← hrest, ← hbody] at hwhole
    rw [htext, hskip, ← List.append_assoc]
    exact .mk hleading hmark hwhole hafter

/-- The text of an operand is read as it is written. -/
theorem parse_of_spelled {text : String} {sigil : Sigil} {e : Expr}
    (h : Spelled sigil e (Utf8.encode text)) : parse text = (sigil, e) := by
  unfold parse
  generalize Utf8.encode text = bytes at h
  obtain @⟨mark, _, blanks, body, after, hleading, hmark, hderives, hafter⟩ := h
  obtain ⟨b, more, hskip, hb, hshort⟩ := hderives.start
  have hparse := Expr.parse_complete hshort hafter
  -- Without a mark, the blanks before the expression are skipped along with those before the mark.
  have hmarked : ∃ body', skipBlanks (mark ++ body) = mark ++ body' ∧ skipBlanks body' = b :: more ∧
      ∀ c rest, body' = c :: rest → c ∉ Sigil.bytes := by
    have hhead : ∀ c rest, body = c :: rest → c ∉ Sigil.bytes :=
      fun c rest => hderives.head_not_mark
    cases hmark with
    | plain =>
      refine ⟨b :: more, hskip, ?_, ?_⟩
      · rw [← hskip, Expr.skipBlanks_skipBlanks]
      · exact fun c rest => hshort.head_not_mark
    | immediate => exact ⟨body, skipBlanks_cons (by decide) _, hskip, hhead⟩
    | augmented => exact ⟨body, skipBlanks_cons (by decide) _, hskip, hhead⟩
    | absolute => exact ⟨body, skipBlanks_cons (by decide) _, hskip, hhead⟩
    | augmentedAbsolute => exact ⟨body, skipBlanks_cons (by decide) _, hskip, hhead⟩
  obtain ⟨body', hmarkskip, hbodyskip, hhead⟩ := hmarked
  rw [List.append_assoc, skipBlanks_append hleading, hmarkskip, Sigil.read_complete hmark hhead]
  dsimp only
  rw [hbodyskip]
  dsimp only
  rw [hparse]

/-- A text that is one leaf is read as it. -/
theorem parse_of_leaf {text : String} {e : Expr} (h : Expr.Leaf e (Utf8.encode text) []) :
    parse text = ({}, e) :=
  parse_of_spelled (.mk Blanks.nil .plain (.ofLeaf h) Blanks.nil)

/-- An operand text has a value if and only if it is a spelling, by the grammar, of an expression
with a meaning.  The mark is the one written, the value is the meaning of the expression, and its
symbols are recorded as used on the line. -/
theorem evaluate_eq_ok_iff_spelled (ctx : Context) (text : String) (t t' : SymbolTable)
    (v : Operand) :
    evaluate ctx text t = .ok v t' ↔
      ∃ e, Spelled v.toSigil e (Utf8.encode text) ∧ e.meaning? ctx t = some v.value.toNat ∧
        t' = t.addReferences ctx.line (e.symbols ctx.scope) := by
  unfold evaluate
  rcases hparse : parse text with ⟨sigil, e⟩
  dsimp only
  rw [bind_eq_ok_iff]
  constructor
  · -- A value comes from a tree without a fault, and such a tree derives the text.
    rintro ⟨value, t₁, heval, hpure⟩
    obtain ⟨rfl, rfl⟩ := pure_eq_ok_iff.mp hpure
    obtain ⟨hmeaning, htable⟩ := (e.eval_eq_ok_iff ctx t t₁ value).mp heval
    have hwell := Expr.wellFormed_of_meaning? hmeaning
    exact ⟨e, spelled_of_parse hparse hwell, hmeaning, htable⟩
  · -- The text is read as the very tree that spells it.
    rintro ⟨e', hspelled, hmeaning, htable⟩
    have hsame := parse_of_spelled hspelled
    rw [hparse] at hsame
    obtain ⟨rfl, rfl⟩ := Prod.mk.inj hsame
    refine ⟨v.value, t', ?_, pure_eq_ok_iff.mpr ⟨rfl, rfl⟩⟩
    exact (e.eval_eq_ok_iff ctx t t' v.value).mpr ⟨hmeaning, htable⟩

end Operand

end PropellerAsm
