import PropellerAsm.Proofs.Expr.Leaves

/-!
# Reading phrases

The readers of the tiers, of operands and of whole expressions against the grammar, in both
directions.

*Sound*: a tree that is read without a fault derives the text.  A tier's reader passes over blanks
behind the last operand, so what it leaves is compared up to leading blanks.

*Complete*: a derivation is followed by the reader, step by step.  The reader never stops before an
operator of its tier, so a derivation that stops there is only followed if the text goes on with
something else; `Follows` says what may stand behind a phrase.  It holds at every inner place of a
derivation, since an operator of a looser tier, a closing parenthesis and the end of the text all
end the tighter tiers.
-/
namespace PropellerAsm.Expr

/-! ## Operators -/

theorem bits_operator?_sound {b : UInt8} {more rest : List UInt8} {op : BinaryOp}
    (h : Tier.bits.operator? (b :: more) = some (op, rest)) :
    op.tier = .bits ∧ b :: more = op.spelling ++ rest := by
  simp only [Tier.operator?] at h
  split_ifs at h with hwithout hand hor hxor
  · obtain ⟨rfl, rfl⟩ := Prod.mk.inj (Option.some.inj h)
    exact ⟨rfl, by rw [hwithout]; rfl⟩
  · obtain ⟨rfl, rfl⟩ := Prod.mk.inj (Option.some.inj h)
    exact ⟨rfl, by rw [hand]; rfl⟩
  · obtain ⟨rfl, rfl⟩ := Prod.mk.inj (Option.some.inj h)
    exact ⟨rfl, by rw [hor]; rfl⟩
  · obtain ⟨rfl, rfl⟩ := Prod.mk.inj (Option.some.inj h)
    exact ⟨rfl, by rw [hxor]; rfl⟩
  · -- The shifts are spelled with two bytes.
    cases more with
    | nil => simp at h
    | cons c more =>
      dsimp only at h
      split_ifs at h with hleft hright
      · obtain ⟨rfl, rfl⟩ := Prod.mk.inj (Option.some.inj h)
        exact ⟨rfl, by rw [hleft.1, hleft.2]; rfl⟩
      · obtain ⟨rfl, rfl⟩ := Prod.mk.inj (Option.some.inj h)
        exact ⟨rfl, by rw [hright.1, hright.2]; rfl⟩

/-- The operator that a text starts with is one of the tier, as it is spelled. -/
theorem operator?_sound {t : Tier} {text rest : List UInt8} {op : BinaryOp}
    (h : t.operator? text = some (op, rest)) : op.tier = t ∧ text = op.spelling ++ rest := by
  cases text with
  | nil => cases t <;> simp [Tier.operator?] at h
  | cons b more =>
    -- Each tier tries its own spellings in turn.
    cases t with
    | bits => exact bits_operator?_sound h
    | sums =>
      simp only [Tier.operator?] at h
      split_ifs at h with hadd hsub
      · obtain ⟨rfl, rfl⟩ := Prod.mk.inj (Option.some.inj h)
        exact ⟨rfl, by rw [hadd]; rfl⟩
      · obtain ⟨rfl, rfl⟩ := Prod.mk.inj (Option.some.inj h)
        exact ⟨rfl, by rw [hsub]; rfl⟩
    | products =>
      simp only [Tier.operator?] at h
      split_ifs at h with hmul hdiv hrem
      · obtain ⟨rfl, rfl⟩ := Prod.mk.inj (Option.some.inj h)
        exact ⟨rfl, by rw [hmul]; rfl⟩
      · obtain ⟨rfl, rfl⟩ := Prod.mk.inj (Option.some.inj h)
        exact ⟨rfl, by rw [hdiv]; rfl⟩
      · obtain ⟨rfl, rfl⟩ := Prod.mk.inj (Option.some.inj h)
        exact ⟨rfl, by rw [hrem]; rfl⟩

/-- Every operator of a tier is found where it is spelled. -/
theorem operator?_spelling (op : BinaryOp) (rest : List UInt8) :
    op.tier.operator? (op.spelling ++ rest) = some (op, rest) := by
  cases op <;> rfl

/-- An operator starts with a delimiter. -/
theorem spelling_delimited (op : BinaryOp) (rest : List UInt8) :
    Delimited (op.spelling ++ rest) := by
  cases op <;> exact Delimited.cons (by decide) _

theorem skipBlanks_spelling (op : BinaryOp) (rest : List UInt8) :
    skipBlanks (op.spelling ++ rest) = op.spelling ++ rest := by
  cases op <;> exact skipBlanks_cons (by decide) _

theorem length_spelling_pos (op : BinaryOp) : 0 < op.spelling.length := by
  cases op <;> decide

/-! ## Readers of phrases -/

/-- The reader of a phrase over a reader of operands. -/
def Phrase.reader (item : List UInt8 → Expr × List UInt8) (bound : Nat) :
    Phrase → List UInt8 → Expr × List UInt8
  | .operand => item
  | .tier .products => level .products item bound
  | .tier .sums => level .sums (level .products item bound) bound
  | .tier .bits => tiers item bound

theorem reader_tier (item : List UInt8 → Expr × List UInt8) (bound : Nat) (t : Tier) :
    Phrase.reader item bound (.tier t) = level t (t.parts.reader item bound) bound := by
  cases t <;> rfl

/-- A chain looks at its text from the first byte that is not blank. -/
theorem chain_congr {t : Tier} {item : List UInt8 → Expr × List UInt8} {l : Expr}
    {text text' : List UInt8} (bound : Nat) (h : skipBlanks text = skipBlanks text') :
    chain t item (bound + 1) l text = chain t item (bound + 1) l text' := by
  rw [chain, chain, h]

/-! ## Soundness -/

/-- The trees that a reader returns without a fault are spelled by its text, up to blanks in front
of what it leaves. -/
def Reads (p : Phrase) (read : List UInt8 → Expr × List UInt8) : Prop :=
  ∀ text e rest, read text = (e, rest) → e.wellFormed = true →
    ∃ rest', Derives p e text rest' ∧ skipBlanks rest' = skipBlanks rest

/-- A chain without a fault has no fault on its left. -/
theorem wellFormed_of_chain {t : Tier} {item : List UInt8 → Expr × List UInt8} (bound : Nat)
    {l e : Expr} {text rest : List UInt8} (h : chain t item bound l text = (e, rest))
    (he : e.wellFormed = true) : l.wellFormed = true := by
  induction bound generalizing l text with
  | zero =>
    obtain ⟨rfl, -⟩ := Prod.mk.inj h
    simp [wellFormed] at he
  | succ bound ih =>
    rw [chain] at h
    split at h
    · obtain ⟨rfl, -⟩ := Prod.mk.inj h
      exact he
    · -- The loop goes on with the left side as a part of a greater one.
      have hbinary := ih h
      rw [wellFormed, Bool.and_eq_true] at hbinary
      exact hbinary.1

/-- What a chain reads goes on with what is derived on its left. -/
theorem chain_sound {t : Tier} {item : List UInt8 → Expr × List UInt8} (hitem : Reads t.parts item)
    (bound : Nat) {l e : Expr} {text mid mid' rest : List UInt8}
    (h : chain t item bound l mid = (e, rest)) (he : e.wellFormed = true)
    (hl : Derives (.tier t) l text mid') (hmid : skipBlanks mid' = skipBlanks mid) :
    ∃ rest', Derives (.tier t) e text rest' ∧ skipBlanks rest' = skipBlanks rest := by
  induction bound generalizing l mid mid' with
  | zero =>
    obtain ⟨rfl, -⟩ := Prod.mk.inj h
    simp [wellFormed] at he
  | succ bound ih =>
    rw [chain] at h
    split at h
    · obtain ⟨rfl, rfl⟩ := Prod.mk.inj h
      exact ⟨mid', hl, by rw [hmid, skipBlanks_skipBlanks]⟩
    · next op after hop =>
      obtain ⟨rfl, htext⟩ := operator?_sound hop
      -- The fault-free result contains the right side, so that is free of faults too.
      have hbinary := wellFormed_of_chain bound h he
      rw [wellFormed, Bool.and_eq_true] at hbinary
      obtain ⟨after', hr, hafter⟩ := hitem after _ _ rfl hbinary.2
      obtain ⟨blanks, hblanks, hmid'⟩ := exists_blanks mid'
      rw [hmid, htext, ← List.append_assoc] at hmid'
      rw [hmid'] at hl
      exact ih h (.joined hblanks hl hr) hafter

theorem level_sound {t : Tier} {item : List UInt8 → Expr × List UInt8} (hitem : Reads t.parts item)
    (bound : Nat) : Reads (.tier t) (level t item bound) := by
  intro text e rest h he
  rw [level] at h
  obtain ⟨mid, hl, hmid⟩ := hitem text _ _ rfl (wellFormed_of_chain bound h he)
  exact chain_sound hitem bound h he (.single hl) hmid

theorem tiers_sound {item : List UInt8 → Expr × List UInt8} (hitem : Reads .operand item)
    (bound : Nat) : Reads (.tier .bits) (tiers item bound) := by
  have hproducts := level_sound (t := .products) hitem bound
  have hsums := level_sound (t := .sums) hproducts bound
  exact level_sound (t := .bits) hsums bound

/-- A parenthesis is closed behind what has been read in it. -/
theorem closing_sound {e e' : Expr} {text after rest : List UInt8} {item : _} {bound : Nat}
    (hitem : Reads .operand item) (hread : tiers item bound text = (e', after))
    (h : closing e' after = (e, rest)) (he : e.wellFormed = true) :
    ∃ before, Blanks before ∧ Derives (.tier .bits) e text (before ++ ')'.toUInt8 :: rest) := by
  -- Behind the blanks stands the parenthesis; anything else, the end included, is a fault.
  unfold closing at h
  split at h
  · next b more hafter =>
    split_ifs at h with hb
    · obtain ⟨rfl, rfl⟩ := Prod.mk.inj h
      obtain ⟨after', hderives, hskip⟩ := tiers_sound hitem bound text _ _ hread he
      obtain ⟨before, hbefore, hafter'⟩ := exists_blanks after'
      rw [hskip, hafter, hb] at hafter'
      rw [hafter'] at hderives
      exact ⟨before, hbefore, hderives⟩
    · obtain ⟨rfl, -⟩ := Prod.mk.inj h
      simp [wellFormed] at he
  · obtain ⟨rfl, -⟩ := Prod.mk.inj h
    simp [wellFormed] at he

/-- An operand that is read without a fault is one of the grammar. -/
theorem operand_sound (bound : Nat) {e : Expr} {text rest : List UInt8}
    (h : operand bound text = (e, rest)) (he : e.wellFormed = true) :
    Derives .operand e text rest := by
  induction bound generalizing e text rest with
  | zero =>
    obtain ⟨rfl, -⟩ := Prod.mk.inj h
    simp [wellFormed] at he
  | succ bound ih =>
    obtain ⟨blanks, hblanks, htext⟩ := exists_blanks text
    -- What stands behind a sign or in parentheses is read with one step less.
    have hreads : Reads .operand (operand bound) := fun text' e' rest' h' he' =>
      ⟨rest', ih h' he', rfl⟩
    rw [operand] at h
    rw [htext]
    split at h
    · obtain ⟨rfl, -⟩ := Prod.mk.inj h
      simp [wellFormed] at he
    · next b more hskip =>
      rw [hskip]
      split_ifs at h with hneg hnot hopen
      · obtain ⟨rfl, rfl⟩ := Prod.mk.inj h
        exact .unary hblanks hneg (ih rfl he)
      · obtain ⟨rfl, rfl⟩ := Prod.mk.inj h
        exact .unary hblanks hnot (ih rfl he)
      · subst hopen
        rcases hread : tiers (operand bound) (bound + 1) more with ⟨e', after⟩
        rw [hread] at h
        obtain ⟨before, hbefore, hinner⟩ := closing_sound hreads hread h he
        exact .group hblanks hbefore hinner
      · exact .leaf hblanks (leaf_sound h he)

/-- A text that is read without a fault is an expression and blanks. -/
theorem parse_sound {text : List UInt8} {e : Expr} (h : parse text = e)
    (he : e.wellFormed = true) :
    ∃ after, Blanks after ∧ Derives (.tier .bits) e text after := by
  have hreads : Reads .operand (operand (text.length + 1)) := fun text' e' rest' h' he' =>
    ⟨rest', operand_sound _ h' he', rfl⟩
  rcases hread : read text with ⟨e', rest⟩
  rw [parse, hread] at h
  dsimp only at h
  split at h
  · next hskip =>
    -- Nothing but blanks is left, in the derivation as in the reader.
    subst h
    obtain ⟨after, hderives, hafter⟩ := tiers_sound hreads _ text _ _ hread he
    obtain ⟨blanks, hblanks, heq⟩ := exists_blanks after
    rw [hafter, hskip, List.append_nil] at heq
    exact ⟨after, heq ▸ hblanks, hderives⟩
  · subst h
    simp [wellFormed] at he

/-! ## What follows a phrase -/

/-- The tiers that bind tighter than a phrase's own operators. -/
def Phrase.tighter : Phrase → List Tier
  | .tier .bits => [.sums, .products]
  | .tier .sums => [.products]
  | .tier .products => []
  | .operand => []

/-- The text can stand behind a phrase that is read to its end: it goes on with a delimiter, and
not with an operator that belongs into the phrase's last operand. -/
structure Follows (p : Phrase) (rest : List UInt8) : Prop where
  delimited : Delimited rest
  ended : ∀ t ∈ p.tighter, t.operator? (skipBlanks rest) = none

/-- What follows a tier follows its last part. -/
theorem Follows.part {t : Tier} {rest : List UInt8} (h : Follows (.tier t) rest) :
    Follows t.parts rest := by
  refine ⟨h.delimited, ?_⟩
  intro t' ht'
  apply h.ended
  cases t with
  | bits => exact List.mem_cons_of_mem _ ht'
  | sums => simp [Tier.parts, Phrase.tighter] at ht'
  | products => simp [Tier.parts, Phrase.tighter] at ht'

/-- What follows a tier does not go on with the next one. -/
theorem Follows.part_ended {t t' : Tier} {rest : List UInt8} (h : Follows (.tier t) rest)
    (hpart : t.parts = .tier t') : t'.operator? (skipBlanks rest) = none := by
  apply h.ended
  cases t with
  | bits => obtain rfl := Phrase.tier.inj hpart; decide
  | sums => obtain rfl := Phrase.tier.inj hpart; decide
  | products => simp [Tier.parts] at hpart

/-- An operator is not found on a tier that binds tighter. -/
theorem operator?_tighter {t : Tier} {op : BinaryOp} (h : t ∈ Phrase.tighter (.tier op.tier))
    (after : List UInt8) : t.operator? (op.spelling ++ after) = none := by
  cases op <;> cases t <;>
    simp_all +decide [BinaryOp.spelling, Tier.operator?]

/-- An operator ends the tiers that bind tighter. -/
theorem follows_operator {blanks : List UInt8} (hblanks : Blanks blanks) (op : BinaryOp)
    (after : List UInt8) : Follows (.tier op.tier) (blanks ++ op.spelling ++ after) := by
  rw [List.append_assoc]
  refine ⟨hblanks.delimited (spelling_delimited op after), fun t ht => ?_⟩
  rw [skipBlanks_append hblanks, skipBlanks_spelling]
  exact operator?_tighter ht after

/-- A closing parenthesis ends every tier. -/
theorem operator?_closing (t : Tier) (rest : List UInt8) :
    t.operator? (')'.toUInt8 :: rest) = none := by
  cases t with
  | bits => cases rest <;> rfl
  | sums => rfl
  | products => rfl

/-- A leaf alone is a whole expression. -/
theorem Derives.ofLeaf {e : Expr} {text rest : List UInt8} (h : Leaf e text rest) :
    Derives (.tier .bits) e text rest :=
  .single (t := .bits) (.single (t := .sums) (.single (t := .products) (.leaf Blanks.nil h)))

/-! ## Lengths -/

/-- A phrase takes at least one byte. -/
theorem Derives.length_lt {p : Phrase} {e : Expr} {text rest : List UInt8}
    (h : Derives p e text rest) : rest.length < text.length := by
  induction h with
  | single _ ih => exact ih
  | joined _ _ _ ihl ihr =>
    simp only [List.length_append] at ihl
    omega
  | unary _ _ _ ih =>
    simp only [List.length_append, List.length_cons]
    omega
  | group _ _ _ ih =>
    simp only [List.length_append, List.length_cons] at ih ⊢
    omega
  | leaf _ spelled =>
    have := spelled.length_lt
    simp only [List.length_append]
    omega

/-! ## Completeness -/

/-- The reader follows a derivation: an operand is read exactly, and the reader of a tier gets to
the place behind the derivation with its tree on the left. -/
def Followed (e : Expr) (text rest : List UInt8) : Phrase → Prop
  | .operand => ∀ bound, text.length < bound → operand bound text = (e, rest)
  | .tier t => ∀ bound fuel, text.length < bound → text.length < fuel →
      ∃ fuel', rest.length < fuel' ∧ Phrase.reader (operand bound) fuel (.tier t) text =
        chain t (t.parts.reader (operand bound) fuel) fuel' e rest

/-- A chain stops where no operator of its tier follows. -/
theorem chain_stop {t : Tier} {item : List UInt8 → Expr × List UInt8} {fuel : Nat} {e : Expr}
    {rest : List UInt8} (hfuel : rest.length < fuel) (h : t.operator? (skipBlanks rest) = none) :
    chain t item fuel e rest = (e, skipBlanks rest) := by
  obtain ⟨fuel, rfl⟩ : ∃ n, fuel = n + 1 := ⟨fuel - 1, by omega⟩
  rw [chain, h]

/-- The part of a tier is read up to what follows it. -/
theorem Followed.part {t : Tier} {e : Expr} {text rest : List UInt8}
    (h : Followed e text rest t.parts) (hrest : Follows (.tier t) rest) {bound fuel : Nat}
    (hbound : text.length < bound) (hfuel : text.length < fuel) :
    ∃ rest', t.parts.reader (operand bound) fuel text = (e, rest') ∧
      skipBlanks rest' = skipBlanks rest := by
  cases hpart : t.parts with
  | operand =>
    rw [hpart] at h
    exact ⟨rest, h bound hbound, rfl⟩
  | tier t' =>
    rw [hpart] at h
    obtain ⟨fuel', hfuel', hread⟩ := h bound fuel hbound hfuel
    rw [chain_stop hfuel' (hrest.part_ended hpart)] at hread
    exact ⟨skipBlanks rest, hread, skipBlanks_skipBlanks rest⟩

theorem followed_single {t : Tier} {e : Expr} {text rest : List UInt8}
    (hpart : Derives t.parts e text rest) (ih : Followed e text rest t.parts)
    (hrest : Follows (.tier t) rest) : Followed e text rest (.tier t) := by
  intro bound fuel hbound hfuel
  obtain ⟨rest', hread, hskip⟩ := ih.part hrest hbound hfuel
  have hlen := hpart.length_lt
  obtain ⟨n, rfl⟩ : ∃ n, fuel = n + 1 := ⟨fuel - 1, by omega⟩
  refine ⟨n + 1, by omega, ?_⟩
  rw [reader_tier, level, hread]
  exact chain_congr n hskip

theorem followed_joined {op : BinaryOp} {l r : Expr} {text blanks after rest : List UInt8}
    (hblanks : Blanks blanks) (hleft : (blanks ++ op.spelling ++ after).length < text.length)
    (ihl : Followed l text (blanks ++ op.spelling ++ after) (.tier op.tier))
    (hright : Derives op.tier.parts r after rest) (ihr : Followed r after rest op.tier.parts)
    (hrest : Follows (.tier op.tier) rest) :
    Followed (.binary op l r) text rest (.tier op.tier) := by
  intro bound fuel hbound hfuel
  have hright_len := hright.length_lt
  have hspelling := length_spelling_pos op
  simp only [List.length_append] at hleft
  obtain ⟨fuel', hfuel', hread⟩ := ihl bound fuel hbound hfuel
  simp only [List.length_append] at hfuel'
  have hbound' : after.length < bound := by omega
  have hfuel'' : after.length < fuel := by omega
  obtain ⟨rest', hpart, hskip⟩ := ihr.part hrest hbound' hfuel''
  -- One step of the chain takes the operator, and the part behind it is the right side.
  obtain ⟨n, rfl⟩ : ∃ n, fuel' = n + 2 := ⟨fuel' - 2, by omega⟩
  refine ⟨n + 1, by omega, ?_⟩
  rw [hread, chain, List.append_assoc, skipBlanks_append hblanks, skipBlanks_spelling,
    operator?_spelling]
  dsimp only
  rw [hpart]
  exact chain_congr n hskip

theorem followed_unary {op : UnaryOp} {sign : UInt8} (hsign : op.Spelled sign) {e : Expr}
    {blanks text rest : List UInt8} (hblanks : Blanks blanks) (ih : Followed e text rest .operand) :
    Followed (.unary op e) (blanks ++ sign :: text) rest .operand := by
  intro bound hbound
  simp only [List.length_append, List.length_cons] at hbound
  obtain ⟨n, rfl⟩ : ∃ n, bound = n + 1 := ⟨bound - 1, by omega⟩
  have hinner := ih n (by omega)
  cases op with
  | negate =>
    obtain rfl := hsign
    rw [operand, skipBlanks_append hblanks, skipBlanks_cons (by decide)]
    dsimp only
    rw [if_pos rfl, hinner]
  | complement =>
    -- The complement has two signs, and neither is the one that is tried before it.
    replace hsign : sign = '!'.toUInt8 ∨ sign = '~'.toUInt8 := hsign
    have hne : sign ≠ '-'.toUInt8 := by
      rcases hsign with rfl | rfl
      · decide
      · decide
    have hblank : isBlank sign = false := by
      rcases hsign with rfl | rfl
      · decide
      · decide
    rw [operand, skipBlanks_append hblanks, skipBlanks_cons hblank]
    dsimp only
    rw [if_neg hne, if_pos hsign, hinner]

theorem followed_group {e : Expr} {blanks text before rest : List UInt8} (hblanks : Blanks blanks)
    (hbefore : Blanks before)
    (ih : Followed e text (before ++ ')'.toUInt8 :: rest) (.tier .bits)) :
    Followed e (blanks ++ '('.toUInt8 :: text) rest .operand := by
  intro bound hbound
  simp only [List.length_append, List.length_cons] at hbound
  obtain ⟨n, rfl⟩ : ∃ n, bound = n + 1 := ⟨bound - 1, by omega⟩
  obtain ⟨fuel', hfuel', hread⟩ := ih n (n + 1) (by omega) (by omega)
  -- The parenthesis ends every tier, so the inner reader stops right before it.
  have hclosing : skipBlanks (before ++ ')'.toUInt8 :: rest) = ')'.toUInt8 :: rest := by
    rw [skipBlanks_append hbefore, skipBlanks_cons (by decide)]
  rw [chain_stop hfuel' (by rw [hclosing, operator?_closing]), hclosing] at hread
  have htiers : tiers (operand n) (n + 1) text = (e, ')'.toUInt8 :: rest) := hread
  rw [operand, skipBlanks_append hblanks, skipBlanks_cons (by decide)]
  dsimp only
  rw [if_neg (by decide), if_neg (by decide), if_pos rfl, htiers]
  simp [closing, skipBlanks_cons (b := ')'.toUInt8) (by decide)]

/-- A text without one of the signs at its start is read as a leaf. -/
theorem operand_leaf {blanks : List UInt8} (hblanks : Blanks blanks) {b : UInt8} (hb : b ∉ signs)
    (bound : Nat) (more : List UInt8) :
    operand (bound + 1) (blanks ++ b :: more) = leaf b more := by
  -- None of the alternatives before a leaf applies to its first byte.
  have hneg : b ≠ '-'.toUInt8 := by rintro rfl; exact hb (by decide)
  have hnot : ¬ (b = '!'.toUInt8 ∨ b = '~'.toUInt8) := by
    rintro (rfl | rfl)
    · exact hb (by decide)
    · exact hb (by decide)
  have hopen : b ≠ '('.toUInt8 := by rintro rfl; exact hb (by decide)
  rw [operand, skipBlanks_append hblanks, skipBlanks_cons (not_isBlank_of_not_sign hb)]
  dsimp only
  rw [if_neg hneg, if_neg hnot, if_neg hopen]

theorem followed_leaf {e : Expr} {blanks text rest : List UInt8} (hblanks : Blanks blanks)
    (h : Leaf e text rest) (hrest : Delimited rest) :
    Followed e (blanks ++ text) rest .operand := by
  intro bound hbound
  obtain ⟨n, rfl⟩ : ∃ n, bound = n + 1 := ⟨bound - 1, by omega⟩
  obtain ⟨b, more, rfl, hb⟩ := h.start
  rw [operand_leaf hblanks hb, h.read hrest rfl]

/-- Every derivation with a place behind it where the reader stops is followed. -/
theorem Derives.followed {p : Phrase} {e : Expr} {text rest : List UInt8}
    (h : Derives p e text rest) (hrest : Follows p rest) : Followed e text rest p := by
  -- By induction on the derivation; each part is shown to end where its own reader stops.
  induction h with
  | single part ih => exact followed_single part (ih hrest.part) hrest
  | joined spaced left right ihl ihr =>
    exact followed_joined spaced left.length_lt (ihl (follows_operator spaced _ _)) right
      (ihr hrest.part) hrest
  | unary spaced sign_spelled _ ih => exact followed_unary sign_spelled spaced (ih hrest)
  | @group e blanks text before rest spaced closed inner ih =>
    refine followed_group spaced closed (ih ⟨closed.delimited (.cons (by decide) _), ?_⟩)
    intro t _
    rw [skipBlanks_append closed, skipBlanks_cons (by decide), operator?_closing]
  | leaf spaced spelled => exact followed_leaf spaced spelled hrest.delimited

/-- An expression with blanks behind it is read as it is written. -/
theorem parse_complete {e : Expr} {text after : List UInt8}
    (h : Derives (.tier .bits) e text after) (hafter : Blanks after) : parse text = e := by
  -- Blanks are all that is left, and no operator starts there.
  have hend : ∀ t : Tier, t.operator? (skipBlanks after) = none := by
    intro t
    rw [hafter.skip_eq_nil]
    cases t <;> rfl
  have hdelimited : Delimited after := by
    simpa using hafter.delimited Delimited.nil
  obtain ⟨fuel', hfuel', hread⟩ := h.followed ⟨hdelimited, fun t _ => hend t⟩
    (text.length + 1) (text.length + 1) (by omega) (by omega)
  rw [chain_stop hfuel' (hend _), hafter.skip_eq_nil] at hread
  have hwhole : read text = (e, []) := hread
  rw [parse, hwhole]
  rfl

end PropellerAsm.Expr
