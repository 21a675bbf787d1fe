import PropellerAsm.Proofs.Encoding.Touched
import PropellerAsm.Proofs.Instruction.Table
import PropellerAsm.Proofs.Opcode

/-!
# The fixed bits of an encoded instruction

An instruction that has been encoded keeps every bit that its pattern writes out, and its condition,
whatever the operands are.  The exceptions are the tests, whose flag word moves the code of the test
by an even step, and no operation, which is the zero long.
-/
namespace PropellerAsm

/-! ## Shapes and their fields -/

namespace Shape

/-- Only no operation reaches the condition. -/
theorem hi_lt_of_mem_fields {shape : Shape} (hshape : shape ≠ .nop) :
    ∀ f ∈ shape.fields, f.hi < 28 := by
  cases shape with
  | nop => exact absurd rfl hshape
  | bare rule => rcases rule with _ | _ | _ | _ <;> decide
  | dst place rule => cases place <;> rcases rule with _ | _ | _ | _ <;> decide
  | dstSrc pointer rule => cases pointer <;> rcases rule with _ | _ | _ | _ <;> decide
  | both pointer rule => cases pointer <;> rcases rule with _ | _ | _ | _ <;> decide
  | lane l => cases l <;> decide
  | modify target => cases target <;> decide
  | _ => decide

end Shape

/-! ## Flag-setting instructions -/

namespace Encoder

/-- A new value of a flag has four bits. -/
theorem modczParameter_lt {ctx : Context} {c c' : Cursor} {code : Long} {text : OperandText}
    (h : modczParameter ctx c = .ok (code, text) c') : code.toNat < 16 := by
  obtain ⟨text', c₁, -, h⟩ := bind_eq_ok_iff.mp h
  -- A parameter has a code of four bits, a number is checked.
  cases hfind : Keyword.find? text'.text with
  | some keyword =>
    rw [hfind] at h
    cases keyword with
    | modcz parameter =>
      obtain ⟨hresult, -⟩ := pure_eq_ok_iff.mp h
      obtain ⟨rfl, -⟩ := Prod.mk.inj hresult
      rw [BitVec.toNat_setWidth]
      exact Nat.lt_of_le_of_lt (Nat.mod_le _ _) parameter.isLt
    | _ => exact absurd h throw_ne_ok
  | none =>
    rw [hfind] at h
    obtain ⟨operand, c₂, -, h⟩ := bind_eq_ok_iff.mp h
    obtain ⟨_, c₃, hraise, h⟩ := bind_eq_ok_iff.mp h
    obtain ⟨hrange, -⟩ := raiseIf_eq_ok_iff.mp hraise
    obtain ⟨hresult, -⟩ := pure_eq_ok_iff.mp h
    obtain ⟨rfl, -⟩ := Prod.mk.inj hresult
    rw [BitVec.toNat_setWidth]
    exact Nat.lt_of_le_of_lt (Nat.mod_le _ _) (by omega)

/-- Four bits and no more. -/
theorem getLsbD_of_lt_sixteen {code : Long} (h : code.toNat < 16) {j : Nat} (hj : 4 ≤ j) :
    code.getLsbD j = false := by
  have hpow : 2 ^ 4 ≤ 2 ^ j := Nat.pow_le_pow_right (by decide) hj
  exact Nat.testBit_lt_two_pow (Nat.lt_of_lt_of_le h hpow)

/-- The rest of the destination is clear behind the new values of the flags. -/
theorem modifyFlags_cleared {ctx : Context} {target : FlagTarget} {c c' : Cursor} {u : Unit}
    (h : modifyFlags ctx target c = .ok u c') {i : Nat} (hi : i ∈ target.cleared) :
    c'.opcode.word.getLsbD i = false := by
  -- A destination that is clear in the bit.
  have hset : ∀ {c₁ : Cursor} {value : Long}, setField .destination value c₁ = .ok u c' →
      9 ≤ i → i ≤ 17 → value.getLsbD (i - 9) = false → c'.opcode.word.getLsbD i = false := by
    intro c₁ value hwrite hlo hhi hclear
    obtain rfl := modify_eq_ok_iff.mp hwrite
    have hcovers : Field.destination.lo ≤ i ∧ i ≤ Field.destination.hi := ⟨hlo, hhi⟩
    rw [Opcode.getLsbD_set, if_pos hcovers]
    exact hclear
  cases target with
  | both =>
    obtain ⟨⟨carry, text⟩, c₁, hcarry, h⟩ := bind_eq_ok_iff.mp h
    obtain ⟨_, c₂, -, h⟩ := bind_eq_ok_iff.mp h
    obtain ⟨⟨zero, _⟩, c₃, hzero, h⟩ := bind_eq_ok_iff.mp h
    obtain rfl := List.mem_singleton.mp hi
    refine hset h (by decide) (by decide) ?_
    rw [BitVec.getLsbD_or, BitVec.getLsbD_shiftLeft,
      getLsbD_of_lt_sixteen (modczParameter_lt hcarry) (by decide),
      getLsbD_of_lt_sixteen (modczParameter_lt hzero) (by decide), Bool.and_false, Bool.or_false]
  | carry =>
    obtain ⟨⟨carry, text⟩, c₁, hcarry, h⟩ := bind_eq_ok_iff.mp h
    have hbits : i = 17 ∨ (9 ≤ i ∧ i ≤ 12) := by
      simp only [FlagTarget.cleared, List.mem_cons, List.not_mem_nil, or_false] at hi
      omega
    refine hset h (by omega) (by omega) ?_
    rw [BitVec.getLsbD_shiftLeft]
    rcases hbits with hhigh | hlow
    · rw [getLsbD_of_lt_sixteen (modczParameter_lt hcarry) (by omega), Bool.and_false]
    · -- The low half stands below the shifted value.
      rw [decide_eq_true (by omega : i - 9 < 4), Bool.not_true, Bool.and_false, Bool.false_and]
  | zero =>
    obtain ⟨⟨zero, text⟩, c₁, hzero, h⟩ := bind_eq_ok_iff.mp h
    have hbits : 13 ≤ i ∧ i ≤ 17 := by
      simp only [FlagTarget.cleared, List.mem_cons, List.not_mem_nil, or_false] at hi
      omega
    refine hset h (by omega) hbits.2 ?_
    exact getLsbD_of_lt_sixteen (modczParameter_lt hzero) (by omega)

end Encoder

/-! ## Tests -/

/-- What a flag word adds to the code of a test: 0, 2, 4 or 6 for a plain, an and, an or and an
exclusive-or update. -/
def Flag.step : Flag → Long
  | wc | wz | wcz => 0
  | andC | andZ => 2
  | orC | orZ => 4
  | xorC | xorZ => 6

theorem Flag.step_le (flag : Flag) : flag.step.toNat ≤ 6 := by
  cases flag <;> decide

/-- A test is followed by one flag, never by both. -/
theorem Flag.variant_eq_step {flag : Flag} {carry : Bool} {variant : Long}
    (h : flag.testVariant? = some (carry, variant)) : flag ≠ .wcz ∧ variant = flag.step := by
  revert carry variant
  cases flag <;> simp [testVariant?, step]

/-- The last of the words is a flag update. -/
def Word.EndIn (words : List Word) (flag : Flag) : Prop :=
  ∃ word, words.getLast? = some word ∧ word.token = .keyword (.flag flag)

theorem Word.EndIn.of_suffix {words rest : List Word} {flag : Flag} (h : EndIn rest flag)
    (hsuffix : rest <:+ words) : EndIn words flag := by
  obtain ⟨taken, rfl⟩ := hsuffix
  obtain ⟨word, hlast, htoken⟩ := h
  exact ⟨word, by rw [List.getLast?_append, hlast]; rfl, htoken⟩

namespace Encoder

open Cursor (Touched)

theorem finish_eq_ok {c c' : Cursor} {u : Unit} (h : finish c = .ok u c') :
    c.words = [] ∧ c' = c := by
  obtain ⟨c₁, c₂, hget, h⟩ := bind_eq_ok_iff.mp h
  obtain ⟨rfl, rfl⟩ := get_eq_ok_iff.mp hget
  obtain ⟨hwords, hsame⟩ := raiseIf_eq_ok_iff.mp h
  exact ⟨not_not.mp hwords, hsame.symm⟩

theorem peek?_eq_ok {c c' : Cursor} {word : Option Word} (h : peek? c = .ok word c') :
    word = c.words.head? ∧ c' = c := by
  obtain ⟨c₁, c₂, hget, h⟩ := bind_eq_ok_iff.mp h
  obtain ⟨rfl, rfl⟩ := get_eq_ok_iff.mp hget
  obtain ⟨hword, hsame⟩ := pure_eq_ok_iff.mp h
  exact ⟨hword.symm, hsame.symm⟩

theorem setFlags_words {carry zero : Bool} {c c' : Cursor} {u : Unit}
    (h : setFlags carry zero c = .ok u c') : c'.words = c.words := by
  cases carry <;> cases zero <;> cases h <;> rfl

/-- Where only a flag word goes on, the word is one. -/
theorem flag_of_match {α : Type} {token : Token} {f : Flag → Encoder α} {fault : Fault}
    {c c' : Cursor} {x : α}
    (h : (match token with
      | .keyword (.flag flag) => f flag
      | _ => throw fault : Encoder α) c = .ok x c') :
    ∃ flag, token = .keyword (.flag flag) ∧ f flag c = .ok x c' := by
  cases token with
  | keyword k =>
    cases k with
    | flag flag => exact ⟨flag, rfl, h⟩
    | _ => exact absurd h throw_ne_ok
  | _ => exact absurd h throw_ne_ok

/-- A test takes a flag word, marks one flag and adds the variant to its field. -/
theorem testFlag_run {f : Field} {c c' : Cursor} {u : Unit} (h : testFlag f c = .ok u c') :
    ∃ word words flag carry variant c₁, c.words = word :: words ∧
      word.token = .keyword (.flag flag) ∧ flag.testVariant? = some (carry, variant) ∧
      setFlags carry (!carry) c = .ok () c₁ ∧
      c' = { c₁ with words := words, opcode := c₁.opcode.add f variant } := by
  obtain ⟨next, c₁, hpeek, h⟩ := bind_eq_ok_iff.mp h
  obtain ⟨rfl, rfl⟩ := peek?_eq_ok hpeek
  cases hwords : c₁.words with
  | nil =>
    rw [hwords] at h
    exact absurd h throw_ne_ok
  | cons word words =>
    rw [hwords, List.head?_cons] at h
    obtain ⟨flag, htoken, h⟩ := flag_of_match h
    cases hvariant : flag.testVariant? with
    | none =>
      rw [hvariant] at h
      exact absurd h throw_ne_ok
    | some choice =>
      obtain ⟨carry, variant⟩ := choice
      rw [hvariant] at h
      obtain ⟨_, c₂, hflags, h⟩ := bind_eq_ok_iff.mp h
      obtain ⟨_, c₃, hskip, h⟩ := bind_eq_ok_iff.mp h
      obtain rfl := modify_eq_ok_iff.mp hskip
      have hrest : c₂.words.tail = words := by
        rw [setFlags_words hflags, hwords, List.tail_cons]
      rw [hrest] at h
      exact ⟨word, words, flag, carry, variant, c₂, rfl, htoken, hvariant, hflags,
        (modify_eq_ok_iff.mp h).symm⟩

/-- The flag word of a test adds its step to the field, where the field has room and is none of the
flag bits. -/
theorem testFlag_eq_ok {f : Field} {c c' : Cursor} {u : Unit} (h : testFlag f c = .ok u c')
    (hroom : (c.opcode.get f).toNat + 6 < 2 ^ f.width)
    (hapart : ∀ i, f.Covers i → ∀ g ∈ [Field.carry, Field.zero], ¬ g.Covers i) :
    ∃ word flag, c.words = word :: c'.words ∧ word.token = .keyword (.flag flag) ∧
      flag ≠ .wcz ∧ c'.opcode.get f = c.opcode.get f + flag.step := by
  obtain ⟨word, words, flag, carry, variant, c₁, hwords, htoken, hvariant, hflags, rfl⟩ :=
    testFlag_run h
  obtain ⟨hsingle, rfl⟩ := Flag.variant_eq_step hvariant
  -- Writing the flag bits does not move the field.
  have hkept : Touched 0 [.carry, .zero] c c₁ :=
    (keeps_setFlags (fun _ => by decide) (fun _ => by decide)).of_ok hflags
  have hfield : c₁.opcode.get f = c.opcode.get f :=
    Opcode.get_congr fun i hi => hkept.bits i (hapart i hi)
  refine ⟨word, flag, hwords, htoken, hsingle, ?_⟩
  have hsum : (c₁.opcode.get f).toNat + flag.step.toNat < 2 ^ f.width := by
    have hstep := flag.step_le
    rw [hfield]
    omega
  rw [← hfield]
  exact Opcode.get_add c₁.opcode hsum

end Encoder

namespace Instruction

open Cursor (Touched)

variable {ctx : Context}

/-! ## Operands -/

/-- No operation ends with the zero long. -/
theorem operands_nop {c c' : Cursor} {u : Unit} (h : operands ctx .nop c = .ok u c') :
    c'.opcode.word = 0 := by
  obtain ⟨_, c₁, hclear, h⟩ := bind_eq_ok_iff.mp h
  obtain rfl := modify_eq_ok_iff.mp hclear
  obtain ⟨-, rfl⟩ := Encoder.finish_eq_ok h
  rfl

/-- The rest of the destination of a flag-setting instruction is clear. -/
theorem operands_cleared {shape : Shape} {c c' : Cursor} {u : Unit}
    (h : operands ctx shape c = .ok u c') {i : Nat} (hi : i ∈ shape.cleared) :
    c'.opcode.word.getLsbD i = false := by
  cases shape with
  | modify target =>
    obtain ⟨_, c₁, hmodify, h⟩ := bind_eq_ok_iff.mp h
    have hclear := Encoder.modifyFlags_cleared hmodify hi
    have hkept : Touched ctx.line [.carry, .zero] c₁ c' :=
      (Encoder.keeps_flags (some .wcz) (List.Subset.refl _)).of_ok h
    rw [hkept.bits i, hclear]
    -- The flag bits lie above the destination.
    have hinside : ∀ j ∈ target.cleared, j ≤ 17 := by cases target <;> decide
    have habove : ∀ g ∈ [Field.carry, Field.zero], 17 < g.lo := by decide
    intro g hg hcovers
    have hhi := hinside i hi
    have hlo := habove g hg
    have hlo' := hcovers.1
    omega
  | _ => cases hi

/-- Behind operands that leave a field alone, the last word is a flag that adds its step to the
field. -/
theorem testFlag_after {f : Field} {fields : List Field} {c c₁ c' : Cursor} {u : Unit}
    (hkept : Touched ctx.line fields c c₁)
    (hapart : ∀ i, f.Covers i → ∀ g ∈ Field.carry :: Field.zero :: fields, ¬ g.Covers i)
    (hroom : (c.opcode.get f).toNat + 6 < 2 ^ f.width)
    (h : (do Encoder.testFlag f; Encoder.finish : Encoder Unit) c₁ = .ok u c') :
    ∃ flag, Word.EndIn c.words flag ∧ flag ≠ .wcz ∧
      c'.opcode.get f = c.opcode.get f + flag.step := by
  have hfield : c₁.opcode.get f = c.opcode.get f :=
    Opcode.get_congr fun i hi => hkept.bits i fun g hg =>
      hapart i hi g (List.mem_cons_of_mem _ (List.mem_cons_of_mem _ hg))
  obtain ⟨_, c₂, hflag, h⟩ := bind_eq_ok_iff.mp h
  obtain ⟨hempty, rfl⟩ := Encoder.finish_eq_ok h
  obtain ⟨word, flag, hwords, htoken, hsingle, hsum⟩ :=
    Encoder.testFlag_eq_ok hflag (by rwa [hfield]) fun i hi g hg =>
      hapart i hi g (List.mem_append_left fields hg)
  -- The words left before the flag end the line, so the flag is its last word.
  have hend : Word.EndIn c₁.words flag := ⟨word, by rw [hwords, hempty]; rfl, htoken⟩
  exact ⟨flag, hend.of_suffix hkept.words, hsingle, by rw [hsum, hfield]⟩

/-- A test ends in a flag word, which adds its step to the field that the shape varies. -/
theorem operands_test {shape : Shape} {f : Field} (hvaried : shape.varied = [f])
    (hshape : shape ≠ .nop) {c c' : Cursor} {u : Unit} (h : operands ctx shape c = .ok u c')
    (hroom : (c.opcode.get f).toNat + 6 < 2 ^ f.width) :
    ∃ flag, Word.EndIn c.words flag ∧ flag ≠ .wcz ∧
      c'.opcode.get f = c.opcode.get f + flag.step := by
  cases shape with
  | nop => exact absurd rfl hshape
  | testPin =>
    obtain rfl : Field.source = f := by simpa [Shape.varied] using hvaried
    obtain ⟨_, c₁, hdst, h⟩ := bind_eq_ok_iff.mp h
    have hkept : Touched ctx.line [.destination, .immediate] c c₁ :=
      (Encoder.keeps_dst ctx .immediate (by decide) (by decide)).of_ok hdst
    refine testFlag_after hkept ?_ hroom h
    have habove : ∀ g ∈ [Field.carry, .zero, .destination, .immediate], 8 < g.lo := by decide
    intro i hi g hg hcovers
    have hhi : i ≤ 8 := hi.2
    have hlo := habove g hg
    have hlo' := hcovers.1
    omega
  | testBit =>
    obtain rfl : Field.operation = f := by simpa [Shape.varied] using hvaried
    obtain ⟨_, c₁, hdst, h⟩ := bind_eq_ok_iff.mp h
    have hkept : Touched ctx.line (.destination :: Field.sourceFields) c c₁ :=
      (Encoder.keeps_dstSrc ctx false (by decide) (by decide)).of_ok hdst
    refine testFlag_after hkept ?_ hroom h
    have hbelow : ∀ g ∈ Field.carry :: Field.zero :: .destination :: Field.sourceFields,
        g.hi < 21 := by decide
    intro i hi g hg hcovers
    have hlo : 21 ≤ i := hi.1
    have hhi := hbelow g hg
    have hhi' := hcovers.2
    omega
  | _ => cases hvaried

/-- The operands of a sound form leave the pattern's bits as they are, but for those that the shape
varies. -/
theorem operands_fixed {form : Form} (hform : form.Sound) {cond : Condition} {c c' : Cursor}
    {u : Unit} (hc : c.opcode = .ofBits form.bits cond)
    (h : operands ctx form.shape c = .ok u c') {i : Nat} {b : Bool}
    (hfixed : Pattern.fixed? form.pattern i = some b)
    (hvaried : ∀ f ∈ form.shape.varied, ¬ f.Covers i) : c'.opcode.word.getLsbD i = b := by
  by_cases hcleared : i ∈ form.shape.cleared
  · -- The pattern has a zero where the operands clear.
    rw [operands_cleared h hcleared]
    cases b with
    | false => rfl
    | true => exact absurd hcleared (hform.not_cleared hfixed)
  · -- No operand reaches any other fixed bit.
    have houtside : ∀ f ∈ form.shape.fields, ¬ f.Covers i := by
      intro f hf hi
      rcases hform.reached_cases hfixed hf hi with hclear | ⟨g, hg, hcovers⟩
      · exact hcleared hclear
      · exact hvaried g hg hcovers
    have hlow : i < 28 := (Pattern.mark_of_fixedIn? hfixed).1
    have hkept := (keeps_operands ctx form.shape).of_ok h
    rw [hkept.bits i houtside, hc, Opcode.getLsbD_ofBits_low _ _ hlow, Form.bits,
      Pattern.bits_eq_ones]
    exact Pattern.getLsbD_ones hform.1 hfixed

theorem operands_condition {shape : Shape} (hshape : shape ≠ .nop) {bits : Long}
    {cond : Condition} {c c' : Cursor} {u : Unit} (hc : c.opcode = .ofBits bits cond)
    (h : operands ctx shape c = .ok u c') : c'.opcode.word.extractLsb' 28 4 = cond := by
  have hkept := (keeps_operands ctx shape).of_ok h
  apply Opcode.condition_of_kept
  intro i hi
  rw [hkept.bits i, hc]
  intro f hf hcovers
  have hbelow := Shape.hi_lt_of_mem_fields hshape f hf
  have hhi := hcovers.2
  omega

/-- The code of a test is the pattern's, moved by the step of the flag word behind the operands. -/
theorem operands_step {form : Form} (hform : form.Sound) {f : Field}
    (hvaried : form.shape.varied = [f]) (hshape : form.shape ≠ .nop) (hlow : f.hi < 28)
    {cond : Condition} {c c' : Cursor} {u : Unit} (hc : c.opcode = .ofBits form.bits cond)
    (h : operands ctx form.shape c = .ok u c') :
    ∃ flag, Word.EndIn c.words flag ∧ flag ≠ .wcz ∧
      c'.opcode.get f = Opcode.get ⟨form.bits⟩ f + flag.step := by
  have hstart : c.opcode.get f = Opcode.get ⟨form.bits⟩ f := by
    apply Opcode.get_congr
    intro i hi
    rw [hc]
    exact Opcode.getLsbD_ofBits_low _ _ (Nat.lt_of_le_of_lt hi.2 hlow)
  have hroom := hform.room hshape f (by rw [hvaried]; exact List.mem_cons_self)
  rw [← Pattern.bits_eq_ones, ← Form.bits, ← hstart] at hroom
  obtain ⟨flag, hend, hsingle, hsum⟩ := operands_test hvaried hshape h hroom
  exact ⟨flag, hend, hsingle, by rw [hsum, hstart]⟩

/-! ## Instructions -/

theorem encode_eq_ok {mnemonic : String} {form : Form} {cond : Condition} {words : List Word}
    {t t' : SymbolTable} {e : Encoded} (h : encode ctx mnemonic form cond words t = .ok e t') :
    ∃ c', operands ctx (selectForm mnemonic form words).shape
        { words, symbols := t,
          opcode := .ofBits (selectForm mnemonic form words).bits cond } = .ok () c' ∧
      e = { augd := c'.augd.map (augmentation augdBits cond),
            augs := c'.augs.map (augmentation augsBits cond), word := c'.opcode.word } ∧
      c'.symbols = t' := by
  obtain ⟨⟨_, c'⟩, t₁, hrun, h⟩ := bind_eq_ok_iff.mp h
  obtain ⟨rfl, rfl⟩ := pure_eq_ok_iff.mp h
  obtain ⟨hoperands, hsymbols⟩ := Encoder.run_eq_ok_iff.mp hrun
  exact ⟨c', hoperands, rfl, hsymbols⟩

/-- An augmentation has the condition and its own fixed bits. -/
theorem augmentation_bits (bits : Long) (cond : Condition) (upper : Long) :
    (augmentation bits cond upper).extractLsb' 28 4 = cond ∧
      (augmentation bits cond upper).extractLsb' 23 5 = bits.extractLsb' 23 5 := by
  have hkept : ∀ i, 23 ≤ i → (augmentation bits cond upper).getLsbD i =
      (Opcode.ofBits bits cond).word.getLsbD i := by
    intro i hi
    rw [augmentation, Opcode.getLsbD_set]
    refine if_neg fun hcovers => ?_
    have hhi : i ≤ 22 := hcovers.2
    omega
  constructor
  · exact Opcode.condition_of_kept fun i hi => hkept i (by omega)
  · apply BitVec.eq_of_getLsbD_eq
    intro i hi
    rw [BitVec.getLsbD_extractLsb', BitVec.getLsbD_extractLsb', hkept _ (Nat.le_add_right 23 i),
      Opcode.getLsbD_ofBits_low _ _ (by omega)]

/-- The second form of a mnemonic varies nothing, and a mnemonic with one has no varied bits in the
first form. -/
theorem selectForm_sound {mnemonic : String} {form : Form}
    (h : (Text.upper mnemonic, form) ∈ table) (words : List Word) :
    (selectForm mnemonic form words).Sound ∧
      (selectForm mnemonic form words).shape.Named (Text.upper mnemonic) := by
  have hfirst := table_sound h
  -- Only shapes that vary nothing ask for a second form.
  unfold selectForm
  split
  · rename_i hwants
    cases hsecond : secondForm? mnemonic with
    | none => exact hfirst
    | some second =>
      obtain ⟨hsound, hvaried⟩ := secondForms_sound (mem_secondForms hsecond)
      refine ⟨hsound, named_of_plain hvaried ?_⟩
      obtain ⟨hnop, hbit, hpin⟩ := hfirst.2
      rw [← hnop, ← hbit, ← hpin]
      rintro (hshape | hshape | hshape)
      all_goals
        rw [hshape] at hwants
        cases hwants
  · exact hfirst

/-- The bits of the pattern that the operands of a mnemonic vary. -/
def Varies (name : String) (i : Nat) : Prop :=
  name = "NOP" ∨ ((name = "TESTB" ∨ name = "TESTBN") ∧ Field.operation.Covers i) ∨
    ((name = "TESTP" ∨ name = "TESTPN") ∧ Field.source.Covers i)

theorem varies_of_covers {shape : Shape} {name : String} (hnamed : shape.Named name) {f : Field}
    (hf : f ∈ shape.varied) {i : Nat} (hi : f.Covers i) : Varies name i := by
  obtain ⟨hnop, hbit, hpin⟩ := hnamed
  cases shape with
  | nop => exact .inl (hnop.mp rfl)
  | testBit =>
    obtain rfl := List.mem_singleton.mp hf
    exact .inr (.inl ⟨hbit.mp rfl, hi⟩)
  | testPin =>
    obtain rfl := List.mem_singleton.mp hf
    exact .inr (.inr ⟨hpin.mp rfl, hi⟩)
  | _ => cases hf

end Instruction

/-- An encoded instruction follows the form of a mnemonic under a condition. -/
structure Encoded.Follows (name : String) (form : Form) (cond : Condition) (words : List Word)
    (e : Encoded) : Prop where
  /-- A bit that the pattern writes out has that value. -/
  fixed : ∀ i b, Pattern.fixed? form.pattern i = some b → ¬ Instruction.Varies name i →
    e.word.getLsbD i = b
  condition : name ≠ "NOP" → e.word.extractLsb' 28 4 = cond
  /-- No operation is zero, the condition included. -/
  noOperation : name = "NOP" → e.word = 0
  testBit : name = "TESTB" ∨ name = "TESTBN" → ∃ flag, Word.EndIn words flag ∧ flag ≠ .wcz ∧
    Opcode.get ⟨e.word⟩ .operation = Opcode.get ⟨form.bits⟩ .operation + flag.step
  testPin : name = "TESTP" ∨ name = "TESTPN" → ∃ flag, Word.EndIn words flag ∧ flag ≠ .wcz ∧
    Opcode.get ⟨e.word⟩ .source = Opcode.get ⟨form.bits⟩ .source + flag.step
  augd : ∀ long ∈ e.augd, long.extractLsb' 28 4 = cond ∧ long.extractLsb' 23 5 = 0b11111
  augs : ∀ long ∈ e.augs, long.extractLsb' 28 4 = cond ∧ long.extractLsb' 23 5 = 0b11110

namespace Instruction

/-- No operand reaches a fixed bit: whatever the words and the symbols are, an instruction that is
encoded follows the form that the words select. -/
theorem encode_follows_form {ctx : Context} {mnemonic : String} {form : Form} {cond : Condition}
    {words : List Word} {t t' : SymbolTable} {e : Encoded}
    (hrow : (Text.upper mnemonic, form) ∈ table)
    (h : encode ctx mnemonic form cond words t = .ok e t') :
    e.Follows (Text.upper mnemonic) (selectForm mnemonic form words) cond words := by
  obtain ⟨hsound, hnamed⟩ := selectForm_sound hrow words
  obtain ⟨c', hrun, rfl, -⟩ := encode_eq_ok h
  -- From here on it does not matter which form was selected.
  generalize selectForm mnemonic form words = selected at hsound hnamed hrun ⊢
  have hnames := hnamed
  obtain ⟨hnop, hbit, hpin⟩ := hnames
  refine ⟨?_, ?_, ?_, ?_, ?_, ?_, ?_⟩
  · intro i b hfixed hvaries
    refine operands_fixed hsound rfl hrun hfixed fun f hf hi => ?_
    exact hvaries (varies_of_covers hnamed hf hi)
  · intro hname
    exact operands_condition (fun hshape => hname (hnop.mp hshape)) rfl hrun
  · intro hname
    rw [hnop.mpr hname] at hrun
    exact operands_nop hrun
  · intro hname
    have hshape := hbit.mpr hname
    have hvaried : selected.shape.varied = [.operation] := by rw [hshape]; rfl
    exact operands_step hsound hvaried (by simp [hshape]) (by decide) rfl hrun
  · intro hname
    have hshape := hpin.mpr hname
    have hvaried : selected.shape.varied = [.source] := by rw [hshape]; rfl
    exact operands_step hsound hvaried (by simp [hshape]) (by decide) rfl hrun
  · intro long hlong
    obtain ⟨upper, -, rfl⟩ := Option.mem_map.mp hlong
    exact augmentation_bits augdBits cond upper
  · intro long hlong
    obtain ⟨upper, -, rfl⟩ := Option.mem_map.mp hlong
    exact augmentation_bits augsBits cond upper

/-- A test with an augmented source and the second of the flag words, under a condition. -/
theorem encode_follows_form_testb :
    ∃ e t', encode {} "testb" ⟨"0100000 CZI", .testBit⟩ 0x3
        [.ofText "5" 6 true, .ofText "##$1234" 9 false, .ofText "andc" 17 false] {} = .ok e t' ∧
      e = ⟨none, some 0x3f000009, 0x34540a34⟩ ∧
      e.Follows "TESTB" ⟨"0100000 CZI", .testBit⟩ 0x3
        [.ofText "5" 6 true, .ofText "##$1234" 9 false, .ofText "andc" 17 false] := by
  have hfind : Keyword.find? "testb" = some (.instruction ⟨"0100000 CZI", .testBit⟩) := by
    decide +kernel
  have hupper : Text.upper "testb" = "TESTB" := by decide +kernel
  obtain ⟨t', hrun⟩ := value?_eq_some_iff.mp
    (show value? (encode {} "testb" ⟨"0100000 CZI", .testBit⟩ 0x3
        [.ofText "5" 6 true, .ofText "##$1234" 9 false, .ofText "andc" 17 false] {}) =
      some ⟨none, some 0x3f000009, 0x34540a34⟩ by decide +kernel)
  have hfollows := encode_follows_form (mem_table_of_find? hfind) hrun
  rw [hupper] at hfollows
  exact ⟨_, t', hrun, rfl, hfollows⟩

end Instruction

end PropellerAsm
