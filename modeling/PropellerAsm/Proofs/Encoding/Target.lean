import PropellerAsm.Proofs.Address
import PropellerAsm.Proofs.Encoding.ReadBack
import PropellerAsm.Proofs.Operand

/-!
# Targets of jumps

Jumps and calls to an address, and the loads of an address, hold their target in 20 bits: relative
to the next instruction if it lies in the same memory as this one and is not forced to be absolute,
and else as it stands.  A relative target may lie behind or before the instruction; the difference
wraps, and so does the sum that gives the target back.
-/
namespace PropellerAsm

/-! ## Forced addresses -/

/-- A backslash behind the number signs is read as the mark of an absolute address. -/
theorem Sigil.read_absolute_iff (text : List UInt8) :
    (read text).1.absolute = true ↔ ∃ augmented, lead augmented ++ ['\\'.toUInt8] <+: text := by
  have htail : ∀ augmented more, (absolute? augmented more).1.absolute = true ↔
      ['\\'.toUInt8] <+: more := by
    intro augmented more
    cases more with
    | nil => simp [absolute?]
    | cons b rest =>
      by_cases hb : b = '\\'.toUInt8
      · simp [absolute?, hb]
      · simp [absolute?, hb, Ne.symm hb]
  -- One number sign or two stand before the rest, and a backslash is neither.
  cases text with
  | nil => simp [read, lead]
  | cons b rest =>
    by_cases hb : b = '#'.toUInt8
    · subst hb
      cases rest with
      | nil => simp [read, lead, absolute?]
      | cons c more =>
        by_cases hc : c = '#'.toUInt8
        · subst hc
          have hne : '\\'.toUInt8 ≠ '#'.toUInt8 := by decide
          simp [read, lead, htail, hne]
        · simp [read, lead, hc, htail, Ne.symm hc]
    · simp [read, lead, hb, Ne.symm hb]

namespace Operand

/-- The text has a backslash behind its number signs. -/
def IsForced (text : String) : Prop :=
  ∃ augmented, Sigil.lead augmented ++ ['\\'.toUInt8] <+: Expr.skipBlanks (Utf8.encode text)

theorem absolute_iff {ctx : Context} {text : String} {t t' : SymbolTable} {operand : Operand}
    (h : evaluate ctx text t = .ok operand t') : operand.absolute = true ↔ IsForced text := by
  obtain ⟨value, -, rfl, -⟩ := evaluate_eq_ok_iff.mp h
  have hsigil : (parse text).1 = (Sigil.read (Expr.skipBlanks (Utf8.encode text))).1 := by
    unfold parse
    dsimp only
    split <;> rfl
  show (parse text).1.absolute = true ↔ _
  rw [hsigil, Sigil.read_absolute_iff, IsForced]

end Operand

/-! ## The field of a target -/

/-- The place `a` lies in the same memory as the program counter `pc`. -/
def Address.SameMemory (a : Nat) (pc : Long) : Prop :=
  a < hubStart ↔ pc.toNat < hubStart

namespace Opcode

/-- The target `a` of a jump from `pc` is written relative to the next instruction if `relative`
says so, and else as it stands. -/
def aim (op : Opcode) (pc : Long) (relative : Bool) (a : Long) : Opcode :=
  if relative then (op.set .relative 1).set .address (a - Address.step pc 4)
  else op.set .address a

theorem get_relative_aim (op : Opcode) (pc : Long) (relative : Bool) (a : Long) :
    (op.aim pc relative a).get .relative = if relative then 1 else op.get .relative := by
  have hapart : Field.Apart .relative .address := by decide
  cases relative with
  | false => exact get_set_of_apart _ hapart a
  | true =>
    show ((op.set .relative 1).set .address _).get .relative = _
    rw [get_set_of_apart _ hapart]
    exact get_set _ (by decide)

theorem get_aim_of_apart (op : Opcode) (pc : Long) (relative : Bool) (a : Long) {f : Field}
    (hrelative : f.Apart .relative) (haddress : f.Apart .address) :
    (op.aim pc relative a).get f = op.get f := by
  cases relative with
  | false => exact get_set_of_apart _ haddress a
  | true =>
    show ((op.set .relative 1).set .address _).get f = _
    rw [get_set_of_apart _ haddress, get_set_of_apart _ hrelative]

/-- The sum with the next program counter wraps where the difference has. -/
theorem aim_reads_back (op : Opcode) (pc : Long) {a : Long} (h : a.toNat ≤ Encoder.addressMax) :
    (((Address.step pc 4).toNat + ((op.aim pc true a).get .address).toNat) % 2 ^ 20 = a.toNat) ∧
      ((op.aim pc false a).get .address).toNat = a.toNat := by
  have hmax : Encoder.addressMax = 2 ^ 20 - 1 := rfl
  have hwidth : Field.address.width = 20 := rfl
  constructor
  · show ((Address.step pc 4).toNat +
      (((op.set .relative 1).set .address (a - Address.step pc 4)).get .address).toNat) % 2 ^ 20 = _
    have hnext := (Address.step pc 4).isLt
    rw [toNat_get_set, hwidth, BitVec.toNat_sub]
    omega
  · show ((op.set .address a).get .address).toNat = _
    rw [toNat_get_set, hwidth]
    omega

end Opcode

namespace Encoder

variable {ctx : Context} {c c' : Cursor} {u : Unit}

/-- The address is relative to the next instruction. -/
def isRelative (pc : Long) (operand : Operand) : Bool :=
  !operand.absolute && (Address.isHub (operand.value.setWidth 32) == Address.isHub pc)

theorem isRelative_iff {pc : Long} {operand : Operand} (h : operand.value.toNat ≤ addressMax) :
    isRelative pc operand = true ↔
      operand.absolute = false ∧ Address.SameMemory operand.value.toNat pc := by
  have hmax : addressMax = 2 ^ 20 - 1 := rfl
  have htarget : (operand.value.setWidth 32).toNat = operand.value.toNat := by
    rw [BitVec.toNat_setWidth]
    omega
  have hsame : Address.isHub (operand.value.setWidth 32) = Address.isHub pc ↔
      Address.SameMemory operand.value.toNat pc := by
    rw [Bool.eq_iff_iff, Address.isHub_iff, Address.isHub_iff, htarget, Address.SameMemory]
    omega
  rw [isRelative, Bool.and_eq_true, Bool.not_eq_true', beq_iff_eq, hsame]

/-- An address is an immediate of at most 20 bits, and is written as a target. -/
theorem address_eq_ok (h : address ctx c = .ok u c') :
    ∃ text operand, OperandText.take? c.words = some (text, c'.words) ∧
      Operand.evaluate ctx text.text c.symbols = .ok operand c'.symbols ∧
      operand.immediate = true ∧ operand.value.toNat ≤ addressMax ∧
      c' = { c with
        words := c'.words
        symbols := c'.symbols
        opcode := c.opcode.aim ctx.pc (isRelative ctx.pc operand) (operand.value.setWidth 32) } := by
  obtain ⟨_, c₁, hrequire, h⟩ := bind_eq_ok_iff.mp h
  obtain ⟨⟨operand, text⟩, c₂, hvalue, hrequire⟩ := bind_eq_ok_iff.mp hrequire
  obtain ⟨_, c₃, hcheck, hrequire⟩ := bind_eq_ok_iff.mp hrequire
  obtain ⟨himmediate, rfl⟩ := raiseIf_eq_ok_iff.mp hcheck
  obtain ⟨rfl, rfl⟩ := pure_eq_ok_iff.mp hrequire
  obtain ⟨_, c₃, hcheck, h⟩ := bind_eq_ok_iff.mp h
  obtain ⟨hmax, rfl⟩ := raiseIf_eq_ok_iff.mp hcheck
  obtain ⟨htake, heval, hc₂⟩ := value_eq_ok hvalue
  have himmediate' : operand.immediate = true := by simpa using himmediate
  -- Only the long changes once the operand has been read.
  have hc' : c' = { c₂ with
      opcode := c₂.opcode.aim ctx.pc (isRelative ctx.pc operand) (operand.value.setWidth 32) } := by
    cases hrelative : isRelative ctx.pc operand with
    | true =>
      rw [isRelative] at hrelative
      rw [if_pos hrelative] at h
      obtain ⟨_, c₃, hset, h⟩ := bind_eq_ok_iff.mp h
      rw [← modify_eq_ok_iff.mp h, ← modify_eq_ok_iff.mp hset]
      rfl
    | false =>
      rw [isRelative] at hrelative
      rw [if_neg (by rw [hrelative]; exact Bool.false_ne_true)] at h
      rw [← modify_eq_ok_iff.mp h]
      rfl
  rw [hc₂] at hc'
  rw [hc']
  exact ⟨text, operand, htake, heval, himmediate', Nat.le_of_not_lt hmax, rfl⟩

/-- The pointer register of an address instruction is written by its code. -/
theorem pointerRegister_eq_ok {text : OperandText} (h : pointerRegister c = .ok text c') :
    ∃ r code, OperandText.take? c.words = some (text, c'.words) ∧
      Keyword.find? text.text = some (.register r) ∧ r.pointer? = some code ∧
      c' = { c with words := c'.words, opcode := c.opcode.set .pointer code } := by
  obtain ⟨text', c₁, htext, h⟩ := bind_eq_ok_iff.mp h
  obtain ⟨htake, hc₁⟩ := operand_eq_ok htext
  cases hcode : Keyword.pointer? text'.text with
  | none =>
    rw [hcode] at h
    exact absurd h throw_ne_ok
  | some code =>
    rw [hcode] at h
    obtain ⟨_, c₂, hset, h⟩ := bind_eq_ok_iff.mp h
    obtain ⟨rfl, rfl⟩ := pure_eq_ok_iff.mp h
    obtain rfl := modify_eq_ok_iff.mp hset
    unfold Keyword.pointer? at hcode
    split at hcode
    · rename_i r hfind
      exact ⟨r, code, htake, hfind, hcode, by rw [hc₁]⟩
    · cases hcode

end Encoder

/-! ## Instructions with a target -/

/-- The codes of the pointer registers count from the address of the first one. -/
theorem Register.address_of_pointer? {r : Register} {code : Long} (h : r.pointer? = some code) :
    r.address.toNat = pa.address.toNat + code.toNat ∧ code.toNat < 4 := by
  cases r <;> cases h <;> decide

namespace Instruction

/-- Jumps and calls that take a register or an address. -/
def jumps : List String := ["JMP", "CALL", "CALLA", "CALLB"]

/-- The mnemonic in capitals takes an address from these operand words, behind a pointer register
if `pointer` says so. -/
inductive TakesTarget (words : List Word) : (name : String) → (pointer : Bool) → Prop where
  | jump {name : String} (mem : name ∈ jumps) (marked : words.head?.any isImmediate = true) :
      TakesTarget words name false
  | call (register : words.head?.any isPointerRegister = true)
      (marked : words[1]?.any isImmediate = true) : TakesTarget words "CALLD" true
  | load : TakesTarget words "LOC" true

theorem table_targets : ∀ row ∈ table, (row.1 ∈ jumps → row.2.shape = .jump) ∧
    (row.1 = "CALLD" → row.2.shape = .callD) ∧
    (row.1 = "LOC" → row.2.shape = .pointerAddress) := by
  decide +kernel

theorem secondForms_targets :
    (∀ name ∈ jumps, (secondForms.lookup name).map (·.shape) = some .address) ∧
      (secondForms.lookup "CALLD").map (·.shape) = some .pointerAddress := by
  decide +kernel

/-- The shape of an instruction with a target. -/
def targetShape (pointer : Bool) : Shape :=
  if pointer then .pointerAddress else .address

theorem selectForm_target {mnemonic : String} {form : Form} {words : List Word} {pointer : Bool}
    (hrow : (Text.upper mnemonic, form) ∈ table)
    (h : TakesTarget words (Text.upper mnemonic) pointer) :
    (selectForm mnemonic form words).shape = targetShape pointer := by
  obtain ⟨hjump, hcall, hload⟩ := table_targets _ hrow
  -- A second form stands in the table under the mnemonic in capitals.
  have hsecond : wantsSecondForm words form.shape = true →
      ((secondForms.lookup (Text.upper mnemonic)).map (·.shape) = some (targetShape pointer)) →
      (selectForm mnemonic form words).shape = targetShape pointer := by
    intro hwants hshape
    obtain ⟨second, hlookup, hshape⟩ := Option.map_eq_some_iff.mp hshape
    rw [selectForm, if_pos hwants, secondForm?, hlookup]
    exact hshape
  generalize hname : Text.upper mnemonic = name at h hjump hcall hload hsecond
  cases h with
  | jump mem marked =>
    refine hsecond ?_ (secondForms_targets.1 name mem)
    rw [hjump mem]
    exact marked
  | call register marked =>
    refine hsecond ?_ secondForms_targets.2
    rw [hcall rfl]
    show (_ && _) = true
    rw [register, marked]
    rfl
  | load =>
    have hfirst : wantsSecondForm words form.shape = false := by
      rw [hload rfl]
      rfl
    rw [selectForm, hfirst, if_neg Bool.false_ne_true, hload rfl]
    rfl

/-- The operand texts of an instruction with a target: a pointer register, if there is one, and the
target behind it. -/
def targetText? (pointer : Bool) (words : List Word) : Option String :=
  ((OperandText.upTo 2 words).map (·.text))[if pointer then 1 else 0]?

open Encoder in
/-- Behind the pointer register, if there is one, an address has been read up to the end. -/
theorem operands_target {ctx : Context} {c c' : Cursor} {u : Unit} {pointer : Bool}
    (h : operands ctx (targetShape pointer) c = .ok u c') :
    ∃ text operand op, targetText? pointer c.words = some text ∧
      Operand.evaluate ctx text c.symbols = .ok operand c'.symbols ∧
      operand.immediate = true ∧ operand.value.toNat ≤ addressMax ∧
      c'.opcode = op.aim ctx.pc (isRelative ctx.pc operand) (operand.value.setWidth 32) ∧
      c'.augd = c.augd ∧ c'.augs = c.augs ∧
      if pointer then
        ∃ name r code, (OperandText.upTo 2 c.words).head? = some name ∧
          Keyword.find? name.text = some (.register r) ∧ r.pointer? = some code ∧
          op = c.opcode.set .pointer code
      else op = c.opcode := by
  cases pointer with
  | false =>
    -- The address is the only operand.
    obtain ⟨_, c₁, haddress, h⟩ := bind_eq_ok_iff.mp h
    obtain ⟨-, rfl⟩ := finish_eq_ok h
    obtain ⟨text, operand, htake, heval, himmediate, hmax, hc'⟩ := address_eq_ok haddress
    have htext : targetText? false c.words = some text.text := by
      simp only [targetText?, OperandText.upTo, htake]
      rfl
    rw [hc']
    exact ⟨text.text, operand, c.opcode, htext, heval, himmediate, hmax, rfl, rfl, rfl, rfl⟩
  | true =>
    -- The pointer register comes first, and the address behind its comma.
    obtain ⟨name, c₁, hpointer, h₁⟩ := bind_eq_ok_iff.mp h
    obtain ⟨_, c₂, hexpect, h₂⟩ := bind_eq_ok_iff.mp h₁
    obtain ⟨hcomma, rfl⟩ := expectComma_eq_ok hexpect
    obtain ⟨_, c₃, haddress, hfinish⟩ := bind_eq_ok_iff.mp h₂
    obtain ⟨-, rfl⟩ := finish_eq_ok hfinish
    obtain ⟨r, code, hname, hfind, hcode, hc₁⟩ := pointerRegister_eq_ok hpointer
    obtain ⟨text, operand, htake, heval, himmediate, hmax, hc'⟩ := address_eq_ok haddress
    have hfirst : OperandText.upTo 2 c.words = name :: OperandText.upTo 1 c₂.words := by
      rw [OperandText.upTo, hname]
      dsimp only
      rw [if_pos hcomma]
    have htext : targetText? true c.words = some text.text := by
      rw [targetText?, hfirst]
      simp only [OperandText.upTo, htake]
      rfl
    rw [hc₁] at heval
    refine ⟨text.text, operand, c.opcode.set .pointer code, htext, heval, himmediate, hmax, ?_⟩
    rw [hc', hc₁, hfirst, if_pos rfl]
    exact ⟨rfl, rfl, rfl, name, r, code, rfl, hfind, hcode, rfl⟩

end Instruction

/-! ## Reading targets back -/

namespace Encoded

/-- An operand that is written like this can be read back as the target of a jump from `pc`. -/
structure Targets (e : Encoded) (pc : Long) (text : String) (operand : Operand) : Prop where
  immediate : operand.immediate = true
  bound : operand.value.toNat ≤ 0xfffff
  relative : Opcode.get ⟨e.word⟩ .relative = 1 ↔
    ¬ Operand.IsForced text ∧ Address.SameMemory operand.value.toNat pc
  target : (if Opcode.get ⟨e.word⟩ .relative = 1 then
      ((Address.step pc 4).toNat + (Opcode.get ⟨e.word⟩ .address).toNat) % 2 ^ 20
    else (Opcode.get ⟨e.word⟩ .address).toNat) = operand.value.toNat
  /-- An address needs no augmentation. -/
  alone : e.longs = [e.word]

open Encoder in
/-- A target that has been written in a long without a mark can be read back. -/
theorem targets_of_aim {e : Encoded} {op : Opcode} {pc : Long} {text : String} {operand : Operand}
    (himmediate : operand.immediate = true) (hmax : operand.value.toNat ≤ addressMax)
    (hforced : operand.absolute = true ↔ Operand.IsForced text) (hclear : op.get .relative = 0)
    (hword : e.word = (op.aim pc (isRelative pc operand) (operand.value.setWidth 32)).word)
    (halone : e.longs = [e.word]) : e.Targets pc text operand := by
  have hget : ∀ f, Opcode.get ⟨e.word⟩ f =
      (op.aim pc (isRelative pc operand) (operand.value.setWidth 32)).get f :=
    fun f => by rw [hword]
  have htarget : (operand.value.setWidth 32).toNat = operand.value.toNat := by
    have hlong : addressMax < 2 ^ 32 := by decide
    rw [BitVec.toNat_setWidth]
    omega
  obtain ⟨hback, hplain⟩ := op.aim_reads_back pc (htarget.symm ▸ hmax)
  rw [htarget] at hback hplain
  have hmark : Opcode.get ⟨e.word⟩ .relative = 1 ↔ isRelative pc operand = true := by
    rw [hget, Opcode.get_relative_aim, hclear]
    cases isRelative pc operand <;> decide
  refine ⟨himmediate, hmax, ?_, ?_, halone⟩
  · rw [hmark, isRelative_iff hmax, ← hforced, Bool.not_eq_true]
  · by_cases hrelative : isRelative pc operand = true
    · rw [if_pos (hmark.mpr hrelative), hget, hrelative, hback]
    · rw [if_neg (mt hmark.mp hrelative), hget, Bool.eq_false_iff.mpr hrelative, hplain]

/-- The pointer register that is named first can be read back, counted from `PA` on. -/
def NamesPointer (e : Encoded) (words : List Word) : Prop :=
  ∃ name r, (OperandText.upTo 2 words).head? = some name ∧
    Keyword.find? name.text = some (.register r) ∧
    r.address.toNat = Register.pa.address.toNat + (Opcode.get ⟨e.word⟩ .pointer).toNat

end Encoded

namespace Instruction

open Encoder

/-- What has been encoded with a target can be read back. -/
theorem targets_of_encode {ctx : Context} {mnemonic : String} {form : Form} {cond : Condition}
    {words : List Word} {pointer : Bool} {t t' : SymbolTable} {e : Encoded}
    (hrow : (Text.upper mnemonic, form) ∈ table)
    (htakes : TakesTarget words (Text.upper mnemonic) pointer)
    (h : encode ctx mnemonic form cond words t = .ok e t') :
    ∃ text operand, targetText? pointer words = some text ∧
      Operand.evaluate ctx text t = .ok operand t' ∧ e.Targets ctx.pc text operand ∧
      (pointer = true → e.NamesPointer words) := by
  have hshape := selectForm_target hrow htakes
  obtain ⟨hsound, -⟩ := selectForm_sound hrow words
  obtain ⟨c', hrun, rfl, rfl⟩ := encode_eq_ok h
  generalize selectForm mnemonic form words = selected at hshape hsound hrun
  -- No fixed bit is in the way of the mark of a relative target.
  have hclear : (Opcode.ofBits selected.bits cond).get .relative = 0 := by
    refine hsound.get_eq_zero ?_ ?_ ?_ cond
    all_goals
      rw [hshape]
      cases pointer <;> decide
  rw [hshape] at hrun
  obtain ⟨text, operand, op, htext, heval, himmediate, hmax, hopcode, haugd, haugs, hname⟩ :=
    operands_target hrun
  refine ⟨text, operand, htext, heval, ?_, ?_⟩
  · -- Writing the pointer register leaves the mark clear.
    have hopclear : op.get .relative = 0 := by
      cases pointer with
      | false => rw [hname, hclear]
      | true =>
        obtain ⟨_, _, code, -, -, -, rfl⟩ := hname
        rw [Opcode.get_set_of_apart _ (by decide), hclear]
    refine Encoded.targets_of_aim himmediate hmax (Operand.absolute_iff heval) hopclear
      (congrArg Opcode.word hopcode) ?_
    rw [haugd, haugs]
    rfl
  · rintro rfl
    obtain ⟨name, r, code, hfirst, hfind, hcode, rfl⟩ := hname
    obtain ⟨haddress, hcode⟩ := Register.address_of_pointer? hcode
    have hget : c'.opcode.get .pointer = code := by
      rw [hopcode, Opcode.get_aim_of_apart _ _ _ _ (by decide) (by decide)]
      exact Opcode.get_set _ hcode
    exact ⟨name, r, hfirst, hfind, haddress.trans (congrArg (_ + ·.toNat) hget.symm)⟩

/-- The target of a jump can be read back from its long, and with it the pointer register of a call
or a load; an operand that is no immediate of 20 bits is refused. -/
theorem encode_target_reads_back {ctx : Context} {mnemonic : String} {form : Form}
    {cond : Condition} {words : List Word} {pointer : Bool} (t : SymbolTable)
    (hrow : (Text.upper mnemonic, form) ∈ table)
    (htakes : TakesTarget words (Text.upper mnemonic) pointer) :
    (∀ e t', encode ctx mnemonic form cond words t = .ok e t' →
      ∃ text operand, targetText? pointer words = some text ∧
        Operand.evaluate ctx text t = .ok operand t' ∧ e.Targets ctx.pc text operand ∧
        (pointer = true → e.NamesPointer words)) ∧
    ∀ text operand t₁, targetText? pointer words = some text →
      Operand.evaluate ctx text t = .ok operand t₁ →
      operand.immediate = false ∨ 0xfffff < operand.value.toNat →
        ∃ f t', encode ctx mnemonic form cond words t = .error f t' := by
  refine ⟨fun e t' => targets_of_encode hrow htakes, fun text operand t₁ htext heval hrefused => ?_⟩
  -- Whatever is encoded has an operand that fits, and there is only one to read.
  cases h : encode ctx mnemonic form cond words t with
  | error f t' => exact ⟨f, t', rfl⟩
  | ok e t' =>
    obtain ⟨text', operand', htext', heval', htargets, -⟩ := targets_of_encode hrow htakes h
    rw [htext] at htext'
    obtain rfl := Option.some.inj htext'
    rw [heval] at heval'
    obtain ⟨rfl, -⟩ := EStateM.Result.ok.inj heval'
    have hbound := htargets.bound
    have himmediate := htargets.immediate
    obtain hregister | hwide := hrefused
    · rw [hregister] at himmediate
      cases himmediate
    · omega

/-- A call backwards in register memory, to five registers before the next one; as a register the
target would be refused. -/
theorem encode_target_reads_back_calld :
    (∃ e t', encode { pc := 0x44 } "calld" ⟨"1011001 CZI", .callD⟩ 0x3
        [.ofText "pb" 6 true, .ofText "#$40" 10 false] {} = .ok e t' ∧
      e = ⟨none, none, 0x3e3ffffb⟩ ∧
      ∃ text operand, targetText? true [.ofText "pb" 6 true, .ofText "#$40" 10 false] = some text ∧
        Operand.evaluate { pc := 0x44 } text {} = .ok operand t' ∧ e.Targets 0x44 text operand ∧
        e.NamesPointer [.ofText "pb" 6 true, .ofText "#$40" 10 false]) ∧
    ∃ f t', encode {} "loc" ⟨"11101WW RAA", .pointerAddress⟩ 0xf
        [.ofText "pb" 4 true, .ofText "$40" 8 false] {} = .error f t' := by
  have hcalld : Keyword.find? "calld" = some (.instruction ⟨"1011001 CZI", .callD⟩) := by
    decide +kernel
  have hloc : Keyword.find? "loc" = some (.instruction ⟨"11101WW RAA", .pointerAddress⟩) := by
    decide +kernel
  have htakes : TakesTarget [.ofText "pb" 6 true, .ofText "#$40" 10 false]
      (Text.upper "calld") true := by
    rw [(by decide : Text.upper "calld" = "CALLD")]
    exact .call (by decide +kernel) (by decide +kernel)
  have hloads : TakesTarget [.ofText "pb" 4 true, .ofText "$40" 8 false]
      (Text.upper "loc") true := by
    rw [(by decide : Text.upper "loc" = "LOC")]
    exact .load
  obtain ⟨t', hrun⟩ := value?_eq_some_iff.mp
    (show value? (encode { pc := 0x44 } "calld" ⟨"1011001 CZI", .callD⟩ 0x3
        [.ofText "pb" 6 true, .ofText "#$40" 10 false] {}) =
      some ⟨none, none, 0x3e3ffffb⟩ by decide +kernel)
  obtain ⟨text, operand, htext, heval, htargets, hpointer⟩ :=
    (encode_target_reads_back {} (mem_table_of_find? hcalld) htakes).1 _ t' hrun
  have hregister : Operand.evaluate {} "$40" {} = .ok { value := 0x40 } {} := by
    rfl
  exact ⟨⟨_, t', hrun, rfl, text, operand, htext, heval, htargets, hpointer rfl⟩,
    (encode_target_reads_back {} (mem_table_of_find? hloc) hloads).2 _ _ {}
      (by decide +kernel) hregister (.inl rfl)⟩

end Instruction

end PropellerAsm
