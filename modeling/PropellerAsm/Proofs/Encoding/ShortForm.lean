import PropellerAsm.Proofs.Encoding.Constant

/-!
# Short forms

Many instructions can be written with fewer operands than they have.  The operands that are left out
are constants, or the one operand stands for two.  A short form has a bit pattern and a reader of
its own, so nothing in the tables says that it is encoded like the instruction it is short for;
this is proved here.
-/
namespace PropellerAsm

/-! ## Slots apart from each other -/

namespace Slot

/-- No bit belongs to both slots, and neither do upper bits. -/
def Apart (slot other : Slot) : Prop :=
  (∀ f ∈ slot.fields, ∀ g ∈ other.fields, f.Apart g) ∧ slot.side? ≠ other.side?

instance (slot other : Slot) : Decidable (slot.Apart other) :=
  inferInstanceAs (Decidable (_ ∧ _))

theorem write_set (slot : Slot) {f : Field} (h : ∀ g ∈ slot.fields, g.Apart f)
    (operand : Operand) (op : Opcode) (x : Long) :
    slot.write operand (op.set f x) = (slot.write operand op).set f x := by
  have hset : ∀ g ∈ slot.fields, ∀ (op : Opcode) (y : Long),
      (op.set f x).set g y = (op.set g y).set f x :=
    fun g hg op y => op.set_comm (h g hg).symm x y
  cases slot with
  | dst mark =>
    have hmark : mark.write (op.set f x) = (mark.write op).set f x := by
      cases mark with
      | none => rfl
      | immediate => exact hset .immediate (by decide) op 1
      | zero => exact hset .zero (by decide) op 1
    unfold write
    dsimp only
    rw [hmark, ← apply_ite (Opcode.set · f x)]
    exact hset .destination List.mem_cons_self _ _
  | src pointer =>
    unfold write
    dsimp only
    rw [hset .immediate (by decide : Field.immediate ∈ Field.sourceFields),
      ← apply_ite (Opcode.set · f x)]
    exact hset .source (by decide : Field.source ∈ Field.sourceFields) _ _
  | index l => exact hset l.field List.mem_cons_self op _

theorem write_comm {slot other : Slot} (h : ∀ f ∈ slot.fields, ∀ g ∈ other.fields, f.Apart g)
    (operand operand' : Operand) (op : Opcode) :
    slot.write operand (other.write operand' op) =
      other.write operand' (slot.write operand op) := by
  have hset : ∀ g ∈ other.fields, ∀ (op : Opcode) (y : Long),
      slot.write operand (op.set g y) = (slot.write operand op).set g y :=
    fun g hg op y => slot.write_set (fun f hf => h f hf g hg) operand op y
  cases other with
  | dst mark =>
    have hmark : slot.write operand (mark.write op) = mark.write (slot.write operand op) := by
      cases mark with
      | none => rfl
      | immediate => exact hset .immediate (by decide) op 1
      | zero => exact hset .zero (by decide) op 1
    show slot.write operand (Opcode.set _ .destination _) = Opcode.set _ .destination _
    rw [hset .destination List.mem_cons_self, apply_ite (slot.write operand), hmark]
  | src pointer =>
    show slot.write operand (Opcode.set _ .source _) = Opcode.set _ .source _
    rw [hset .source (by decide : Field.source ∈ Field.sourceFields),
      apply_ite (slot.write operand),
      hset .immediate (by decide : Field.immediate ∈ Field.sourceFields)]
  | index l => exact hset l.field List.mem_cons_self op _

/-- No slot reaches into the condition. -/
theorem write_ofBits (slot : Slot) (operand : Operand) (bits : Long) (cond : Condition) :
    slot.write operand (.ofBits bits cond) = .ofBits (slot.write operand ⟨bits⟩).word cond := by
  refine slot.write_set ?_ operand ⟨bits⟩ _
  cases slot with
  | dst mark => cases mark <;> decide
  | src pointer => exact (by decide : ∀ f ∈ Field.sourceFields, f.Apart .condition)
  | index l => cases l <;> decide

/-- The instruction with operands in their slots. -/
def writeAll (op : Opcode) (operands : List (Slot × Operand)) : Opcode :=
  operands.foldl (fun op operand => operand.1.write operand.2 op) op

theorem writeAll_ofBits (operands : List (Slot × Operand)) (bits : Long) (cond : Condition) :
    writeAll (.ofBits bits cond) operands = .ofBits (writeAll ⟨bits⟩ operands).word cond := by
  induction operands generalizing bits with
  | nil => rfl
  | cons operand operands ih =>
    show writeAll (operand.1.write operand.2 (.ofBits bits cond)) operands = _
    rw [write_ofBits, ih]
    rfl

end Slot

namespace Cursor

/-- Operands in slots apart from each other can be put in any order. -/
theorem put_comm (c : Cursor) {slot other : Slot} (h : slot.Apart other)
    (operand operand' : Operand) :
    (c.put other operand').put slot operand = (c.put slot operand).put other operand' := by
  have hsides : ∀ (side : Side) (x y z : Option Long),
      (if operand.immediate ∧ slot.side? = some side then x
        else if operand'.immediate ∧ other.side? = some side then y else z) =
      if operand'.immediate ∧ other.side? = some side then y
        else if operand.immediate ∧ slot.side? = some side then x else z := by
    intro side x y z
    by_cases hslot : slot.side? = some side
    · have hother : other.side? ≠ some side := fun heq => h.2 (hslot.trans heq.symm)
      simp [hother]
    · simp [hslot]
  unfold put
  dsimp only
  rw [Slot.write_comm h.1, hsides .dst, hsides .src]

theorem fill_put (c : Cursor) {slot : Slot} {others : List (Slot × Operand)}
    (h : ∀ other ∈ others, slot.Apart other.1) (operand : Operand) :
    (c.put slot operand).fill others = (c.fill others).put slot operand := by
  induction others generalizing c with
  | nil => rfl
  | cons other others ih =>
    show ((c.put slot operand).put other.1 other.2).fill others = _
    rw [← put_comm c (h other List.mem_cons_self),
      ih _ fun o ho => h o (List.mem_cons_of_mem _ ho)]
    rfl

theorem fill_with_symbols (c : Cursor) (t : SymbolTable) (operands : List (Slot × Operand)) :
    ({ c with symbols := t } : Cursor).fill operands = { c.fill operands with symbols := t } := by
  induction operands generalizing c with
  | nil => rfl
  | cons operand operands ih => exact ih (c.put operand.1 operand.2)

/-- Operands without upper bits change the instruction alone. -/
theorem fill_narrow {c : Cursor} (hd : c.augd = none) (hs : c.augs = none)
    {others : List (Slot × Operand)} (h : ∀ other ∈ others, other.2.upper? = none) :
    c.fill others = { c with opcode := Slot.writeAll c.opcode others } := by
  induction others generalizing c with
  | nil => rfl
  | cons other others ih =>
    have hput : c.put other.1 other.2 = { c with opcode := other.1.write other.2 c.opcode } := by
      unfold put
      rw [h other List.mem_cons_self, hd, hs, ite_self, ite_self]
    show (c.put other.1 other.2).fill others = _
    rw [hput]
    exact @ih { c with opcode := other.1.write other.2 c.opcode } hd hs
      fun o ho => h o (List.mem_cons_of_mem _ ho)

end Cursor

/-! ## Operands that are left out -/

instance (operand : Operand) (mark : ImmediateMark) : Decidable (operand.Fits mark) :=
  inferInstanceAs (Decidable (ite _ _ _))

namespace Slot

instance (operand : Operand) : (slot : Slot) → Decidable (slot.Fits operand)
  | dst mark => inferInstanceAs (Decidable (operand.Fits mark))
  | src _ => inferInstanceAs (Decidable (operand.Fits .immediate))
  | index _ => inferInstanceAs (Decidable (_ ∧ _))

/-- The operand that a constant brings to a slot. -/
def constant? (slot : Slot) (text : String) : Option Operand :=
  match if slot = .src true then Pointer.parse? text else none with
  | some p => if p.index = none then some p.operand else none
  | none =>
    match Operand.parse text with
    | (sigil, .literal value) =>
      if slot.Fits { sigil with value } then some { sigil with value } else none
    | _ => none

theorem receives_of_constant? {slot : Slot} {text : String} {operand : Operand}
    (h : slot.constant? text = some operand) (ctx : Context) (t : SymbolTable) :
    slot.Receives ctx t text operand t := by
  unfold constant? at h
  split at h
  · rename_i p hp
    split at hp
    · rename_i hslot
      split at h
      · rename_i hbare
        obtain rfl := Option.some.inj h
        rw [hslot]
        exact .pointer hp hbare
      · cases h
    · cases hp
  · rename_i hp
    split at h
    · rename_i sigil value hparse
      split at h
      · rename_i hfits
        obtain rfl := Option.some.inj h
        refine .value (Operand.constant_of_parse hparse ctx t) (fun hslot => ?_) hfits
        rwa [if_pos hslot] at hp
      · cases h
    · cases h

/-- Constants for slots, each with its operand. -/
def constants? : List Slot → List String → Option (List (String × Operand))
  | [], [] => some []
  | slot :: slots, text :: texts => do
    let operand ← slot.constant? text
    return (text, operand) :: (← constants? slots texts)
  | _, _ => none

theorem receiveAll_of_constants? {slots : List Slot} {texts : List String}
    {entries : List (String × Operand)} (h : constants? slots texts = some entries)
    (ctx : Context) (t : SymbolTable) :
    ReceiveAll ctx t slots entries t ∧ entries.map Prod.fst = texts := by
  induction slots generalizing texts entries with
  | nil =>
    cases texts with
    | nil =>
      obtain rfl := Option.some.inj h
      exact ⟨.nil t, rfl⟩
    | cons text texts => cases h
  | cons slot slots ih =>
    cases texts with
    | nil => cases h
    | cons text texts =>
      obtain ⟨operand, hoperand, h⟩ := Option.bind_eq_some_iff.mp h
      obtain ⟨others, hothers, h⟩ := Option.bind_eq_some_iff.mp h
      obtain rfl := Option.some.inj h
      obtain ⟨hall, hmap⟩ := ih hothers
      exact ⟨.cons (receives_of_constant? hoperand ctx t) hall, by rw [List.map_cons, hmap]⟩

theorem ReceiveAll.append {ctx : Context} {t t₁ t' : SymbolTable} {slots slots' : List Slot}
    {entries entries' : List (String × Operand)} (h : ReceiveAll ctx t slots entries t₁)
    (h' : ReceiveAll ctx t₁ slots' entries' t') :
    ReceiveAll ctx t (slots ++ slots') (entries ++ entries') t' := by
  induction h with
  | nil t => exact h'
  | cons first _ ih => exact .cons first (ih h')

theorem ReceiveAll.length_eq {ctx : Context} {t t' : SymbolTable} {slots : List Slot}
    {entries : List (String × Operand)} (h : ReceiveAll ctx t slots entries t') :
    slots.length = entries.length := by
  induction h with
  | nil t => rfl
  | cons _ _ ih => rw [List.length_cons, List.length_cons, ih]

end Slot

/-- Nothing but a comma between operand words picks the form of a mnemonic of the shape. -/
def Shape.isPickedByComma : Shape → Bool
  | jump => false
  | callD => false
  | getRnd => false
  | _ => true

namespace Instruction

/-- The first form of a mnemonic in capitals. -/
def form? (name : String) : Option Form :=
  match Keyword.table.lookup name with
  | some (.instruction form) => some form
  | _ => none

theorem find?_of_form? {mnemonic : String} {form : Form}
    (h : form? (Text.upper mnemonic) = some form) :
    Keyword.find? mnemonic = some (.instruction form) := by
  unfold form? at h
  split at h
  · rename_i hlookup
    obtain rfl := Option.some.inj h
    exact hlookup
  · cases h

/-- A mnemonic with one operand, and the instruction that it is short for. -/
structure ShortForm where
  short : String
  /-- Where the operand goes. -/
  slot : Slot
  /-- Which flag words may follow. -/
  rule : Option FlagRule := none
  long : String
  /-- The operands that stand before the one of the short form. -/
  before : List String := []
  /-- The operands that stand behind it. -/
  behind : List String := []
deriving DecidableEq, Repr

/-- Lanes with the index zero, alterations by zero, the stack, and the acknowledgement of a pin. -/
def shortForms : List ShortForm :=
  (["GETNIB", "ROLNIB", "GETBYTE", "ROLBYTE", "GETWORD", "ROLWORD"].map fun name =>
    { short := name, slot := .dst .none, long := name, behind := ["0", "#0"] }) ++
  (["SETNIB", "SETBYTE", "SETWORD"].map fun name =>
    { short := name, slot := .src false, long := name, before := ["0"], behind := ["#0"] }) ++
  (["ALTSN", "ALTGN", "ALTSB", "ALTGB", "ALTSW", "ALTGW", "ALTR", "ALTD", "ALTS", "ALTB"].map
    fun name => { short := name, slot := .dst .none, long := name, behind := ["#0"] }) ++
  [{ short := "ALTI", slot := .dst .none, long := "ALTI", behind := ["#$164"] },
   { short := "POPA", slot := .dst .none, rule := some .wcz, long := "RDLONG",
     behind := ["--ptra"] },
   { short := "POPB", slot := .dst .none, rule := some .wcz, long := "RDLONG",
     behind := ["--ptrb"] },
   { short := "PUSHA", slot := .dst .zero, long := "WRLONG", behind := ["ptra++"] },
   { short := "PUSHB", slot := .dst .zero, long := "WRLONG", behind := ["ptrb++"] },
   { short := "AKPIN", slot := .src false, long := "WRPIN", before := ["#1"] }]

/-- The operands that short forms leave out. -/
def constantTexts : List String :=
  ["0", "#0", "#1", "#$164", "--ptra", "--ptrb", "ptra++", "ptrb++"]

theorem constantTexts_isFlag : ∀ text ∈ constantTexts, (Token.ofText text).isFlag = false := by
  decide +kernel

/-- The form that a mnemonic has when its operand words have a comma between them, or none. -/
def formOf (comma : Bool) (name : String) (form : Form) : Form :=
  if wantsSecondForm [.ofText "" 0 comma] form.shape then (secondForms.lookup name).getD form
  else form

theorem selectForm_of_comma {mnemonic : String} {form : Form} {words : List Word} {comma : Bool}
    (h : form.shape.isPickedByComma = true) (hcomma : words.any (·.comma) = comma) :
    selectForm mnemonic form words = formOf comma (Text.upper mnemonic) form := by
  have hwants : wantsSecondForm words form.shape =
      wantsSecondForm [.ofText "" 0 comma] form.shape := by
    generalize form.shape = shape at h
    cases shape with
    | lane l => simp [wantsSecondForm, hcomma, Word.ofText]
    | alter => simp [wantsSecondForm, hcomma, Word.ofText]
    | jump => cases h
    | callD => cases h
    | getRnd => cases h
    | _ => rfl
  rw [selectForm, hwants]
  rfl

/-- What the tables have on a short form. -/
structure Expansion where
  /-- The first form of the short mnemonic. -/
  form : Form
  /-- The form that it has with one operand. -/
  short : Form
  long : Form
  /-- The slots of the long form before and behind that of the operand, and the constants for
  them. -/
  first : List Slot
  last : List Slot
  before : List (String × Operand)
  behind : List (String × Operand)

namespace Expansion

/-- The slots of the constants with their operands. -/
def constants (e : Expansion) : List (Slot × Operand) :=
  e.first.zip (e.before.map Prod.snd) ++ e.last.zip (e.behind.map Prod.snd)

/-- The short form stores its operand in the slot where the long form has it, and its fixed bits are
those of the long form with the constants. -/
def Sound (e : Expansion) (r : ShortForm) : Prop :=
  (e.form.shape.isPickedByComma = true ∧ e.long.shape.isPickedByComma = true ∧
    formOf true r.long e.long = e.long ∧ r.before ++ r.behind ≠ []) ∧
  (e.short.shape.slots = [r.slot] ∧ e.long.shape.slots = e.first ++ r.slot :: e.last) ∧
  (e.short.shape.tested? = none ∧ e.long.shape.tested? = none ∧
    e.short.shape.rule? = r.rule ∧ e.long.shape.rule? = r.rule) ∧
  (∀ text ∈ r.before ++ r.behind, text ∈ constantTexts) ∧
  (∀ other ∈ e.constants, r.slot.Apart other.1 ∧ other.2.upper? = none) ∧
  Slot.writeAll ⟨e.long.bits⟩ e.constants = ⟨e.short.bits⟩

instance (e : Expansion) (r : ShortForm) : Decidable (e.Sound r) :=
  inferInstanceAs (Decidable (_ ∧ _))

end Expansion

/-- Looks a short form up in the tables. -/
def ShortForm.expansion? (r : ShortForm) : Option Expansion := do
  let form ← form? r.short
  let long ← form? r.long
  let first := long.shape.slots.take r.before.length
  let last := long.shape.slots.drop (r.before.length + 1)
  let before ← Slot.constants? first r.before
  let behind ← Slot.constants? last r.behind
  return { form, short := formOf false r.short form, long, first, last, before, behind }

theorem shortForms_sound : ∀ r ∈ shortForms, ∃ e ∈ r.expansion?, e.Sound r := by
  decide +kernel

theorem shortForms_slot : ∀ r ∈ shortForms, r.slot ≠ .src true := by
  decide

/-! ## Short forms with constants -/

/-- The flag word, or none, is allowed by the rule. -/
def ruleAllows (rule : Option FlagRule) (flag : Option (String × Flag)) : Bool :=
  (flag.map Prod.snd).all fun f => rule.any fun rule => (rule.updates? f).isSome

theorem Expansion.Sound.allows {e : Expansion} {r : ShortForm} (h : e.Sound r)
    {flag : Option (String × Flag)} (hallows : ruleAllows r.rule flag = true) :
    e.short.shape.allows (flag.map Prod.snd) = true := by
  obtain ⟨-, -, ⟨htested, -, hrule, -⟩, -⟩ := h
  unfold Shape.allows
  rw [htested, hrule]
  exact hallows

/-- The constants of the long form and the operand between them leave what the short form leaves. -/
theorem Expansion.Sound.fill_eq {e : Expansion} {r : ShortForm} (h : e.Sound r)
    (hfirst : e.first.length = e.before.length) (x : String) (operand : Operand)
    (words : List Word) (t : SymbolTable) (cond : Condition) :
    Cursor.fill { words, symbols := t, opcode := .ofBits e.long.bits cond }
        (e.long.shape.slots.zip ((e.before ++ (x, operand) :: e.behind).map Prod.snd)) =
      Cursor.fill { words, symbols := t, opcode := .ofBits e.short.bits cond }
        (e.short.shape.slots.zip [operand]) := by
  obtain ⟨-, ⟨hshort, hlong⟩, -, -, hconstants, hbits⟩ := h
  have hzip : e.long.shape.slots.zip ((e.before ++ (x, operand) :: e.behind).map Prod.snd) =
      e.first.zip (e.before.map Prod.snd) ++
        (r.slot, operand) :: e.last.zip (e.behind.map Prod.snd) := by
    rw [hlong, List.map_append, List.zip_append (by rw [hfirst, List.length_map])]
    rfl
  have hlast : ∀ other ∈ e.last.zip (e.behind.map Prod.snd), r.slot.Apart other.1 :=
    fun other hother => (hconstants other (List.mem_append_right _ hother)).1
  -- The operand comes last, and before it the constants only complete the fixed bits.
  have hnarrow := @Cursor.fill_narrow
    { words, symbols := t, opcode := .ofBits e.long.bits cond } rfl rfl e.constants
    fun other hother => (hconstants other hother).2
  calc Cursor.fill { words, symbols := t, opcode := .ofBits e.long.bits cond }
        (e.long.shape.slots.zip ((e.before ++ (x, operand) :: e.behind).map Prod.snd))
      = ((Cursor.fill { words, symbols := t, opcode := .ofBits e.long.bits cond }
          (e.first.zip (e.before.map Prod.snd))).put r.slot operand).fill
            (e.last.zip (e.behind.map Prod.snd)) := by
        rw [hzip, Cursor.fill, List.foldl_append]
        rfl
    _ = (Cursor.fill { words, symbols := t, opcode := .ofBits e.long.bits cond }
          e.constants).put r.slot operand := by
        rw [Cursor.fill_put _ hlast, Expansion.constants, Cursor.fill, Cursor.fill, Cursor.fill,
          List.foldl_append]
    _ = Cursor.fill { words, symbols := t, opcode := .ofBits e.short.bits cond }
          (e.short.shape.slots.zip [operand]) := by
        rw [hnarrow, Slot.writeAll_ofBits, hbits, hshort]
        rfl

theorem any_comma_operandWords_single (text : String) (flag : Option (String × Flag)) :
    (operandWords [text] flag).any (·.comma) = false := by
  cases flag with
  | none => rfl
  | some f => rfl

/-- The words of several operands have a comma between them. -/
theorem any_comma_operandWords {texts : List String} (h : 2 ≤ texts.length)
    (flag : Option (String × Flag)) : (operandWords texts flag).any (·.comma) = true := by
  match texts, h with
  | _ :: _ :: _, _ => rfl

theorem expansion?_eq_some {r : ShortForm} {e : Expansion} (h : r.expansion? = some e) :
    form? r.short = some e.form ∧ form? r.long = some e.long ∧
      formOf false r.short e.form = e.short ∧ Slot.constants? e.first r.before = some e.before ∧
      Slot.constants? e.last r.behind = some e.behind := by
  obtain ⟨form, hform, h⟩ := Option.bind_eq_some_iff.mp h
  obtain ⟨long, hlong, h⟩ := Option.bind_eq_some_iff.mp h
  obtain ⟨before, hbefore, h⟩ := Option.bind_eq_some_iff.mp h
  obtain ⟨behind, hbehind, h⟩ := Option.bind_eq_some_iff.mp h
  obtain rfl := Option.some.inj h
  exact ⟨hform, hlong, rfl, hbefore, hbehind⟩

/-- A short form with its operand is encoded like the long form with the constants beside it. -/
theorem Expansion.Sound.encode_eq {e : Expansion} {r : ShortForm} (h : e.Sound r)
    (he : r.expansion? = some e) {ctx : Context} {t t' : SymbolTable} {x : String}
    {operand : Operand} (hx : (Token.ofText x).isFlag = false)
    (hreceives : r.slot.Receives ctx t x operand t') {flag : Option (String × Flag)}
    (hflag : ∀ f ∈ flag, Keyword.find? f.1 = some (.flag f.2))
    (hallows : e.short.shape.allows (flag.map Prod.snd) = true) {short long : String}
    (hshort : Text.upper short = r.short) (hlong : Text.upper long = r.long) (cond : Condition) :
    ∃ code, encode ctx short e.form cond (operandWords [x] flag) t = .ok code t' ∧
      encode ctx long e.long cond (operandWords (r.before ++ x :: r.behind) flag) t =
        .ok code t' := by
  obtain ⟨-, -, hform, hbefore, hbehind⟩ := expansion?_eq_some he
  obtain ⟨hfirst, hbefore⟩ := Slot.receiveAll_of_constants? hbefore ctx t
  obtain ⟨hlast, hbehind⟩ := Slot.receiveAll_of_constants? hbehind ctx t'
  have hfill := h.fill_eq hfirst.length_eq x operand (Word.ofFlag flag) t' cond
  obtain ⟨⟨hpicked, hpicked', hformOf, hne⟩, ⟨hslot, hslots⟩, ⟨htested, htested', hrule, hrule'⟩,
    htexts, -, -⟩ := h
  obtain ⟨mark, hmark⟩ := Encoder.ending_of_allows hflag hallows
  have hending : Encoder.ending e.long.shape = Encoder.ending e.short.shape := by
    unfold Encoder.ending
    rw [htested, htested', hrule, hrule']
  -- The short form has no comma between its words, and the long form has one.
  have hselected : selectForm short e.form (operandWords [x] flag) = e.short := by
    rw [selectForm_of_comma hpicked (any_comma_operandWords_single x flag), hshort, hform]
  have hentries : (e.before ++ (x, operand) :: e.behind).map Prod.fst =
      r.before ++ x :: r.behind := by
    rw [List.map_append, List.map_cons, hbefore, hbehind]
  have hselected' : selectForm long e.long
      (operandWords ((e.before ++ (x, operand) :: e.behind).map Prod.fst) flag) = e.long := by
    have hlength : 2 ≤ (r.before ++ x :: r.behind).length := by
      have hpos := List.length_pos_iff.mpr hne
      rw [List.length_append] at hpos
      rw [List.length_append, List.length_cons]
      omega
    rw [hentries, selectForm_of_comma hpicked' (any_comma_operandWords hlength flag), hlong,
      hformOf]
  -- Neither the operand nor a constant is a flag word.
  have hwords : ∀ entry ∈ e.before ++ (x, operand) :: e.behind,
      (Token.ofText entry.1).isFlag = false := by
    intro entry hentry
    have hmem : entry.1 ∈ r.before ++ x :: r.behind := by
      rw [← hentries]
      exact List.mem_map_of_mem hentry
    rw [List.mem_append, List.mem_cons, or_left_comm, ← List.mem_append] at hmem
    rcases hmem with heq | hconstant
    · rw [heq]
      exact hx
    · exact constantTexts_isFlag _ (htexts _ hconstant)
  have hone : Slot.ReceiveAll ctx t e.short.shape.slots [(x, operand)] t' := by
    rw [hslot]
    exact .cons hreceives (.nil t')
  have hall : Slot.ReceiveAll ctx t e.long.shape.slots (e.before ++ (x, operand) :: e.behind)
      t' := by
    rw [hslots]
    exact hfirst.append (.cons hreceives hlast)
  -- Both are encoded from their filled slots, and those leave the same.
  have hresult := encode_of_receiveAll cond hflag hmark (by simp [hslot]) hone
    (List.forall_mem_singleton.mpr hx) hselected
  rw [← hending] at hmark
  have hresult' := encode_of_receiveAll cond hflag hmark (by simp [hslots]) hall hwords hselected'
  rw [hfill, hentries] at hresult'
  exact ⟨_, hresult, hresult'⟩

end Instruction

/-! ## Parameters for the flags -/

namespace Encoder

/-- The text is a parameter for a flag: a name, or a number up to 15. -/
inductive IsParameter (ctx : Context) (t : SymbolTable) : String → Long → SymbolTable → Prop where
  | name {text : String} {code : BitVec 4} (found : Keyword.find? text = some (.modcz code)) :
      IsParameter ctx t text (code.setWidth 32) t
  | number {text : String} {operand : Operand} {t' : SymbolTable}
      (unknown : Keyword.find? text = none)
      (evaluated : Operand.evaluate ctx text t = .ok operand t')
      (fits : operand.value.toNat ≤ 15) :
      IsParameter ctx t text (operand.value.setWidth 32) t'

/-- Parameters for the flags of a mnemonic, and the value that they make together. -/
inductive Parameters (ctx : Context) (t : SymbolTable) :
    FlagTarget → List String → Long → SymbolTable → Prop where
  | carry {text : String} {code : Long} {t' : SymbolTable}
      (parameter : IsParameter ctx t text code t') : Parameters ctx t .carry [text] (code <<< 4) t'
  | zero {text : String} {code : Long} {t' : SymbolTable}
      (parameter : IsParameter ctx t text code t') : Parameters ctx t .zero [text] code t'
  | both {text text' : String} {carry zero : Long} {t₁ t' : SymbolTable}
      (first : IsParameter ctx t text carry t₁) (second : IsParameter ctx t₁ text' zero t') :
      Parameters ctx t .both [text, text'] (carry <<< 4 ||| zero) t'

variable {ctx : Context} {c : Cursor} {rest : List Word} {t : SymbolTable}

theorem modczParameter_of_isParameter {text : OperandText} {code : Long}
    (htake : OperandText.take? c.words = some (text, rest))
    (h : IsParameter ctx c.symbols text.text code t) :
    modczParameter ctx c = .ok (code, text) { c with words := rest, symbols := t } := by
  unfold modczParameter
  rw [bind_of_ok (operand_of_take htake)]
  cases h with
  | name found =>
    rw [found]
    rfl
  | number unknown evaluated fits =>
    rename_i operand
    have hevaluate : evaluate ctx text.text { c with words := rest } =
        .ok operand { c with words := rest, symbols := t } := evaluate_of_ok evaluated
    have hrange : (Fault.raiseIf (15 < operand.value.toNat) (.modczRange operand.value) :
        Encoder Unit) { c with words := rest, symbols := t } =
        .ok () { c with words := rest, symbols := t } :=
      raiseIf_eq_ok_iff.mpr ⟨Nat.not_lt.mpr fits, rfl⟩
    rw [unknown]
    dsimp only
    rw [bind_of_ok hevaluate, bind_of_ok hrange]
    rfl

theorem modifyFlags_of_parameters {target : FlagTarget} {texts : List String} {value : Long}
    (hrow : OperandText.InRow rest c.words texts)
    (h : Parameters ctx c.symbols target texts value t) :
    modifyFlags ctx target c = .ok ()
      { c with words := rest, symbols := t, opcode := c.opcode.set .destination value } := by
  cases h with
  | carry parameter =>
    obtain ⟨taken⟩ | _ := hrow
    exact bind_of_ok (modczParameter_of_isParameter taken parameter)
  | zero parameter =>
    obtain ⟨taken⟩ | _ := hrow
    exact bind_of_ok (modczParameter_of_isParameter taken parameter)
  | @both text text' _ _ t₁ _ first second =>
    obtain _ | @⟨_, words, _, _, _, taken, ⟨taken'⟩ | _⟩ := hrow
    have hsecond := @modczParameter_of_isParameter ctx { c with words, symbols := t₁ } rest t
      ⟨text', false⟩ _ taken' second
    refine (bind_of_ok (modczParameter_of_isParameter taken first)).trans ?_
    dsimp only
    rw [bind_of_ok (expectComma_of_comma rfl), bind_of_ok hsecond]
    rfl

end Encoder

namespace Instruction

theorem encode_of_parameters {ctx : Context} {t t' : SymbolTable} {target : FlagTarget}
    {texts : List String} {value : Long} (h : Encoder.Parameters ctx t target texts value t')
    (htexts : ∀ text ∈ texts, (Token.ofText text).isFlag = false)
    {flag : Option (String × Flag)} {mark : Opcode → Opcode}
    (hflag : ∀ f ∈ flag, Keyword.find? f.1 = some (.flag f.2))
    (hmark : ∀ c : Cursor, c.words = Word.ofFlag flag →
      Encoder.flags (some .wcz) c = .ok () { c with words := [], opcode := mark c.opcode })
    {form : Form} (hshape : form.shape = .modify target) (mnemonic : String) (cond : Condition) :
    encode ctx mnemonic form cond (operandWords texts flag) t = .ok
      { augd := none, augs := none,
        word := (mark ((Opcode.ofBits form.bits cond).set .destination value)).word } t' := by
  have hselected : selectForm mnemonic form (operandWords texts flag) = form := by
    unfold selectForm
    rw [hshape]
    rfl
  have hne : texts ≠ [] := by
    cases h with
    | carry _ => exact List.cons_ne_nil _ _
    | zero _ => exact List.cons_ne_nil _ _
    | both _ _ => exact List.cons_ne_nil _ _
  have hrow := OperandText.inRow_separated hne htexts (Word.ofFlag_not_plain hflag)
  have hoperands : operands ctx form.shape
      { words := operandWords texts flag, symbols := t, opcode := .ofBits form.bits cond } =
      .ok () ⟨[], t', mark ((Opcode.ofBits form.bits cond).set .destination value), none, none⟩ := by
    rw [hshape]
    exact (bind_of_ok (Encoder.modifyFlags_of_parameters hrow h)).trans (hmark _ rfl)
  exact encode_of_operands hselected hoperands

end Instruction

/-! ## One operand for two -/

/-- A register alone stands for both operands of the shape, and no operand is a pointer
expression. -/
def Shape.doubles : Shape → Bool
  | dstSrc pointer _ => !pointer
  | testBit => true
  | callD => true
  | _ => false

theorem Shape.cases_of_doubles {shape : Shape} (h : shape.doubles = true) :
    (∃ rule, shape = .dstSrc false rule) ∨ shape = .testBit ∨ shape = .callD := by
  cases shape with
  | dstSrc pointer rule =>
    cases pointer with
    | false => exact .inl ⟨rule, rfl⟩
    | true => cases h
  | testBit => exact .inr (.inl rfl)
  | callD => exact .inr (.inr rfl)
  | _ => cases h

theorem Shape.slots_of_doubles {shape : Shape} (h : shape.doubles = true) :
    shape.slots = [.dst .none, .src false] := by
  obtain ⟨rule, rfl⟩ | rfl | rfl := cases_of_doubles h
  all_goals rfl

namespace Encoder

/-- Without a comma and without another plain word the register is the source as well. -/
theorem sourceAfter_alone {ctx : Context} {pointer : Bool} {value : Quad} {text : OperandText}
    {c : Cursor} (hcomma : text.comma = false)
    (hwords : ∀ word ∈ c.words.head?, word.token ≠ .plain) :
    sourceAfter ctx pointer value text c = register .src value c := by
  have hpeek : peek? c = .ok c.words.head? c := rfl
  unfold sourceAfter
  rw [if_neg (by simp [hcomma]), bind_of_ok hpeek]
  cases hhead : c.words.head? with
  | none => rfl
  | some word =>
    dsimp only
    rw [if_neg (hwords word hhead)]

theorem dstSrc_alone {ctx : Context} {c : Cursor} {text : OperandText} {operand : Operand}
    {rest : List Word} {t : SymbolTable}
    (htake : OperandText.take? c.words = some (text, rest)) (hcomma : text.comma = false)
    (hrest : ∀ word ∈ rest.head?, word.token ≠ .plain)
    (h : (Slot.dst .none).Receives ctx c.symbols text.text operand t) :
    dstSrc ctx false c = .ok ()
      (({ c with words := rest, symbols := t } : Cursor).fill
        [(.dst .none, operand), (.src false, operand)]) := by
  obtain ⟨hregister, hdst⟩ := @dstSrc_of_register ctx c operand text rest t false htake h
  have hfits : operand.value.toNat ≤ 0x1ff := by
    cases h with
    | value _ _ hfits => exact (Operand.Fits.register hfits).2
  rw [hdst, sourceAfter_alone hcomma hrest, register_of_fits hfits]
  simp [Cursor.fill, Cursor.put, Slot.write, hregister]
  rfl

end Encoder

namespace Instruction

theorem operands_alone {shape : Shape} (hshape : shape.doubles = true) {ctx : Context} {c : Cursor}
    {x : String} {operand : Operand} {rest : List Word} {t : SymbolTable}
    (htake : OperandText.take? c.words = some (⟨x, false⟩, rest))
    (hrest : ∀ word ∈ rest.head?, word.token ≠ .plain)
    (h : (Slot.dst .none).Receives ctx c.symbols x operand t) :
    operands ctx shape c = Encoder.ending shape
      (Cursor.fill { c with words := rest, symbols := t }
        (shape.slots.zip [operand, operand])) := by
  have hdstSrc := Encoder.dstSrc_alone htake rfl hrest h
  obtain ⟨rule, rfl⟩ | rfl | rfl := Shape.cases_of_doubles hshape
  all_goals exact bind_of_ok hdstSrc

/-- One word, or the same word twice, does not ask for the second form. -/
theorem selectForm_of_doubles {form : Form} (h : form.shape.doubles = true)
    {flag : Option (String × Flag)} (hflag : ∀ f ∈ flag, Keyword.find? f.1 = some (.flag f.2))
    (mnemonic x : String) :
    selectForm mnemonic form (operandWords [x] flag) = form ∧
      selectForm mnemonic form (operandWords [x, x] flag) = form := by
  have hplain : isImmediate (.ofText x 0 false) = true →
      isPointerRegister (.ofText x 0 true) = false := by
    intro hmark
    have htoken : (Word.ofText x 0 true).token = .plain := Token.ofText_of_mark (eq_of_beq hmark)
    unfold isPointerRegister
    rw [htoken]
  have hnext : ((operandWords [x] flag)[1]?).any isImmediate = false := by
    cases flag with
    | none => rfl
    | some f =>
      -- A flag word is a keyword, and no keyword starts with a mark.
      refine Bool.eq_false_iff.mpr fun hmark => ?_
      have hnone : Keyword.find? f.1 = none := Keyword.find?_of_mark (eq_of_beq hmark)
      rw [hflag f rfl] at hnone
      cases hnone
  have hwants : wantsSecondForm (operandWords [x] flag) form.shape = false ∧
      wantsSecondForm (operandWords [x, x] flag) form.shape = false := by
    obtain ⟨rule, hshape⟩ | hshape | hshape := Shape.cases_of_doubles h
    all_goals rw [hshape]
    · exact ⟨rfl, rfl⟩
    · exact ⟨rfl, rfl⟩
    · refine ⟨Bool.and_eq_false_iff.mpr (.inr hnext), ?_⟩
      show (isPointerRegister (.ofText x 0 true) && isImmediate (.ofText x 0 false)) = false
      cases hmark : isImmediate (.ofText x 0 false) with
      | true => rw [hplain hmark, Bool.false_and]
      | false => rw [Bool.and_false]
  unfold selectForm
  rw [hwants.1, hwants.2]
  exact ⟨rfl, rfl⟩

/-- A register alone is encoded like the register written twice. -/
theorem encode_doubled {form : Form} (hshape : form.shape.doubles = true) {ctx : Context}
    {t t' : SymbolTable} {x : String} {operand : Operand}
    (hx : (Token.ofText x).isFlag = false) (hevaluated : Operand.evaluate ctx x t = .ok operand t')
    (hfits : operand.Fits .none) {flag : Option (String × Flag)}
    (hflag : ∀ f ∈ flag, Keyword.find? f.1 = some (.flag f.2))
    (hallows : form.shape.allows (flag.map Prod.snd) = true) (mnemonic mnemonic' : String)
    (cond : Condition) :
    ∃ code t'', encode ctx mnemonic form cond (operandWords [x] flag) t = .ok code t' ∧
      encode ctx mnemonic' form cond (operandWords [x, x] flag) t = .ok code t'' := by
  have hselected := (selectForm_of_doubles hshape hflag mnemonic x).1
  have hselected' := (selectForm_of_doubles hshape hflag mnemonic' x).2
  obtain ⟨mark, hmark⟩ := Encoder.ending_of_allows hflag hallows
  -- The uses that the first operand has recorded do not change the value of the second one.
  obtain ⟨t'', hevaluated'⟩ := (Operand.evaluate_recorded_iff
    ((Operand.keeps_evaluate ctx x).of_ok hevaluated)).mpr ⟨_, hevaluated⟩
  have hslots := Shape.slots_of_doubles hshape
  have hfirst : (Slot.dst .none).Receives ctx t x operand t' := .value hevaluated nofun hfits
  -- A register that goes to the destination goes to the source as well.
  have hfits' : operand.Fits .immediate :=
    Operand.fits_of_register hfits.register.1 hfits.register.2 _
  have hall : Slot.ReceiveAll ctx t form.shape.slots [(x, operand), (x, operand)] t'' := by
    rw [hslots]
    exact .cons hfirst (.cons (.value hevaluated' nofun hfits') (.nil t''))
  have htake : OperandText.take? (operandWords [x] flag) = some (⟨x, false⟩, Word.ofFlag flag) :=
    OperandText.take?_of_word hx (.inr (Word.ofFlag_not_plain hflag))
  let c := Cursor.fill
    { words := Word.ofFlag flag, symbols := t', opcode := .ofBits form.bits cond }
    (form.shape.slots.zip [operand, operand])
  have halone : operands ctx form.shape
      { words := operandWords [x] flag, symbols := t, opcode := .ofBits form.bits cond } =
      .ok () { c with words := [], opcode := mark c.opcode } :=
    (operands_alone hshape htake (Word.ofFlag_not_plain hflag) hfirst).trans
      (hmark _ (Cursor.fill_words _ _))
  have hsymbols : c.symbols = t' := Cursor.fill_symbols _ _
  have hresult := encode_of_operands hselected halone
  have hresult' := encode_of_receiveAll cond hflag hmark (by simp [hslots]) hall
    (by simpa using hx) hselected'
  -- Both have filled the same slots; only what was recorded differs.
  have hsame := Cursor.fill_with_symbols
    { words := Word.ofFlag flag, symbols := t', opcode := .ofBits form.bits cond } t''
    (form.shape.slots.zip [operand, operand])
  simp only [List.map_cons, List.map_nil] at hsame hresult'
  rw [hsymbols] at hresult
  rw [hsame] at hresult'
  exact ⟨_, t'', hresult, hresult'⟩

/-! ## All short forms -/

/-- Two ways to write an instruction, by a mnemonic in capitals with its operands, are encoded to
the same longs: with the mnemonics in any case, and wherever the words stand in their lines. -/
def SameCode (ctx : Context) (cond : Condition) (t : SymbolTable) (flag : Option (String × Flag))
    (way way' : String × List String) : Prop :=
  ∀ mnemonic mnemonic', Text.upper mnemonic = way.1 → Text.upper mnemonic' = way'.1 →
  ∀ words words', List.Forall₂ Word.SameSpelling (operandWords way.2 flag) words →
    List.Forall₂ Word.SameSpelling (operandWords way'.2 flag) words' →
  ∃ form form' code t₁ t₂, Keyword.find? mnemonic = some (.instruction form) ∧
    Keyword.find? mnemonic' = some (.instruction form') ∧
    encode ctx mnemonic form cond words t = .ok code t₁ ∧
    encode ctx mnemonic' form' cond words' t = .ok code t₂

theorem encode_sameSpelling {ctx : Context} {cond : Condition} {t t' : SymbolTable}
    {mnemonic : String} {form : Form} {words words' : List Word} {code : Encoded}
    (hwords : List.Forall₂ Word.SameSpelling words words')
    (h : encode ctx mnemonic form cond words t = .ok code t') :
    encode ctx mnemonic form cond words' t = .ok code t' := by
  have hQ : SymbolTable.Coupled Eq ctx.line ctx.line :=
    ⟨fun h _ => h ▸ rfl, fun h _ => h ▸ rfl⟩
  have hV : (Variation.columns Eq).Sound ctx.line ctx.line := Variation.sound_columns hQ
  have hend := lockstep_encode hV hwords (hV.same mnemonic) form cond t t rfl
  rw [h] at hend
  generalize hresult : encode (ctx.onLine ctx.line) mnemonic form cond words' t = y at hend
  cases hend with
  | ok hcode ht =>
    subst hcode ht
    exact hresult

/-- It is enough to look at words in one place. -/
theorem sameCode_of_words {ctx : Context} {cond : Condition} {t : SymbolTable}
    {flag : Option (String × Flag)} {name name' : String} {texts texts' : List String}
    (h : ∀ mnemonic mnemonic', Text.upper mnemonic = name → Text.upper mnemonic' = name' →
      ∃ form form' code t₁ t₂, Keyword.find? mnemonic = some (.instruction form) ∧
        Keyword.find? mnemonic' = some (.instruction form') ∧
        encode ctx mnemonic form cond (operandWords texts flag) t = .ok code t₁ ∧
        encode ctx mnemonic' form' cond (operandWords texts' flag) t = .ok code t₂) :
    SameCode ctx cond t flag (name, texts) (name', texts') := by
  intro mnemonic mnemonic' hm hm' words words' hwords hwords'
  obtain ⟨form, form', code, t₁, t₂, hform, hform', hcode, hcode'⟩ := h mnemonic mnemonic' hm hm'
  exact ⟨form, form', code, t₁, t₂, hform, hform', encode_sameSpelling hwords hcode,
    encode_sameSpelling hwords' hcode'⟩

theorem sameCode_of_shortForm {ctx : Context} {cond : Condition} {t t' : SymbolTable} {x : String}
    {flag : Option (String × Flag)} {r : ShortForm} {operand : Operand}
    (hx : (Token.ofText x).isFlag = false)
    (hflag : ∀ f ∈ flag, Keyword.find? f.1 = some (.flag f.2)) (hr : r ∈ shortForms)
    (hevaluated : Operand.evaluate ctx x t = .ok operand t') (hfits : r.slot.Fits operand)
    (hallows : ruleAllows r.rule flag = true) :
    SameCode ctx cond t flag (r.short, [x]) (r.long, r.before ++ x :: r.behind) := by
  obtain ⟨e, he, hsound⟩ := shortForms_sound r hr
  obtain ⟨hform, hlong, -⟩ := expansion?_eq_some he
  have hreceives : r.slot.Receives ctx t x operand t' :=
    .value hevaluated (fun hslot => absurd hslot (shortForms_slot r hr)) hfits
  refine sameCode_of_words fun mnemonic mnemonic' hm hm' => ?_
  obtain ⟨code, hcode, hcode'⟩ :=
    hsound.encode_eq he hx hreceives hflag (hsound.allows hallows) hm hm' cond
  rw [← hm] at hform
  rw [← hm'] at hlong
  exact ⟨e.form, e.long, code, t', t', find?_of_form? hform, find?_of_form? hlong, hcode, hcode'⟩

theorem modify_forms : ∃ carry zero both : Form,
    (form? "MODC" = some carry ∧ form? "MODZ" = some zero ∧ form? "MODCZ" = some both) ∧
    (carry.shape = .modify .carry ∧ zero.shape = .modify .zero ∧ both.shape = .modify .both) ∧
    carry.bits = both.bits ∧ zero.bits = both.bits :=
  ⟨⟨"1101011 CZ1 0cccc0000 001101111", .modify .carry⟩,
    ⟨"1101011 CZ1 00000zzzz 001101111", .modify .zero⟩,
    ⟨"1101011 CZ1 0cccczzzz 001101111", .modify .both⟩, by decide +kernel⟩

theorem sameCode_of_parameters {ctx : Context} {cond : Condition} {t t' t'' : SymbolTable}
    {flag : Option (String × Flag)} {name name' : String} {form form' : Form}
    {target target' : FlagTarget} {texts texts' : List String} {value : Long}
    (hflag : ∀ f ∈ flag, Keyword.find? f.1 = some (.flag f.2))
    (hallows : ruleAllows (some .wcz) flag = true)
    (hform : form? name = some form) (hform' : form? name' = some form')
    (hshape : form.shape = .modify target) (hshape' : form'.shape = .modify target')
    (hbits : form.bits = form'.bits)
    (htexts : ∀ text ∈ texts', (Token.ofText text).isFlag = false) (hsub : texts ⊆ texts')
    (h : Encoder.Parameters ctx t target texts value t')
    (h' : Encoder.Parameters ctx t target' texts' value t'') :
    SameCode ctx cond t flag (name, texts) (name', texts') := by
  obtain ⟨mark, hmark⟩ := @Encoder.ending_of_allows (.dst .none (some .wcz)) flag hflag hallows
  have hshort := encode_of_parameters h (fun text hmem => htexts text (hsub hmem)) hflag hmark
    hshape
  have hlong := encode_of_parameters h' htexts hflag hmark hshape'
  rw [← hbits] at hlong
  refine sameCode_of_words fun mnemonic mnemonic' hm hm' => ?_
  rw [← hm] at hform
  rw [← hm'] at hform'
  exact ⟨form, form', _, t', t'', find?_of_form? hform, find?_of_form? hform',
    hshort mnemonic cond, hlong mnemonic' cond⟩

theorem sameCode_of_modify {ctx : Context} {cond : Condition} {t t' : SymbolTable} {x : String}
    {flag : Option (String × Flag)} {code : Long} (hx : (Token.ofText x).isFlag = false)
    (hflag : ∀ f ∈ flag, Keyword.find? f.1 = some (.flag f.2))
    (h : Encoder.IsParameter ctx t x code t') (hallows : ruleAllows (some .wcz) flag = true) :
    SameCode ctx cond t flag ("MODC", [x]) ("MODCZ", [x, "_clr"]) ∧
      SameCode ctx cond t flag ("MODZ", [x]) ("MODCZ", ["_clr", x]) := by
  obtain ⟨carry, zero, both, ⟨hcarry, hzero, hboth⟩, ⟨hshape, hshape', hshape''⟩, hbits, hbits'⟩ :=
    modify_forms
  have hclear : ∀ t, Encoder.IsParameter ctx t "_clr" 0 t :=
    fun t => @Encoder.IsParameter.name ctx t "_clr" 0 (by decide +kernel)
  have hflagless : (Token.ofText "_clr").isFlag = false := by decide +kernel
  -- The parameter that is left out is zero.
  have hbehind : Encoder.Parameters ctx t .both [x, "_clr"] (code <<< 4) t' := by
    simpa using Encoder.Parameters.both h (hclear t')
  have hbefore : Encoder.Parameters ctx t .both ["_clr", x] code t' := by
    simpa using Encoder.Parameters.both (hclear t) h
  constructor
  · exact sameCode_of_parameters hflag hallows hcarry hboth hshape hshape'' hbits
      (by simp [hx, hflagless]) (by simp) (.carry h) hbehind
  · exact sameCode_of_parameters hflag hallows hzero hboth hshape' hshape'' hbits'
      (by simp [hx, hflagless]) (by simp) (.zero h) hbefore

theorem sameCode_of_doubles {ctx : Context} {cond : Condition} {t t' : SymbolTable} {x : String}
    {flag : Option (String × Flag)} {name : String} {form : Form} {operand : Operand}
    (hx : (Token.ofText x).isFlag = false)
    (hflag : ∀ f ∈ flag, Keyword.find? f.1 = some (.flag f.2))
    (hfind : Keyword.find? name = some (.instruction form)) (hdoubles : form.shape.doubles = true)
    (hevaluated : Operand.evaluate ctx x t = .ok operand t') (hfits : operand.Fits .none)
    (hallows : form.shape.allows (flag.map Prod.snd) = true) :
    SameCode ctx cond t flag (Text.upper name, [x]) (Text.upper name, [x, x]) := by
  refine sameCode_of_words fun mnemonic mnemonic' hm hm' => ?_
  obtain ⟨code, t'', hcode, hcode'⟩ :=
    encode_doubled hdoubles hx hevaluated hfits hflag hallows mnemonic mnemonic' cond
  have hsame : ∀ m, Text.upper m = Text.upper name →
      Keyword.find? m = some (.instruction form) := by
    intro m hm
    rw [← hfind, Keyword.find?, Keyword.find?, hm]
  exact ⟨form, form, code, t', t'', hsame mnemonic hm, hsame mnemonic' hm', hcode, hcode'⟩

/-- Every short form is encoded, and to the same longs as its long form, under every condition and
wherever it stands, when its operand fits and the flag word is allowed. -/
theorem short_forms_encode_like_long_forms (ctx : Context) (cond : Condition) (t : SymbolTable)
    (x : String) (hx : (Token.ofText x).isFlag = false) (flag : Option (String × Flag))
    (hflag : ∀ f ∈ flag, Keyword.find? f.1 = some (.flag f.2)) :
    (∀ r ∈ shortForms, ∀ operand t', Operand.evaluate ctx x t = .ok operand t' →
      r.slot.Fits operand → ruleAllows r.rule flag = true →
        SameCode ctx cond t flag (r.short, [x]) (r.long, r.before ++ x :: r.behind)) ∧
    (∀ code t', Encoder.IsParameter ctx t x code t' → ruleAllows (some .wcz) flag = true →
      SameCode ctx cond t flag ("MODC", [x]) ("MODCZ", [x, "_clr"]) ∧
        SameCode ctx cond t flag ("MODZ", [x]) ("MODCZ", ["_clr", x])) ∧
    ∀ name form, Keyword.find? name = some (.instruction form) → form.shape.doubles = true →
      ∀ operand t', Operand.evaluate ctx x t = .ok operand t' → operand.Fits .none →
        form.shape.allows (flag.map Prod.snd) = true →
          SameCode ctx cond t flag (Text.upper name, [x]) (Text.upper name, [x, x]) := by
  refine ⟨?_, ?_, ?_⟩
  · intro r hr operand t' hevaluated hfits hallows
    exact sameCode_of_shortForm hx hflag hr hevaluated hfits hallows
  · intro code t' hparameter hallows
    exact sameCode_of_modify hx hflag hparameter hallows
  · intro name form hfind hdoubles operand t' hevaluated hfits hallows
    exact sameCode_of_doubles hx hflag hfind hdoubles hevaluated hfits hallows

/-- A value from the stack of `ptra`, with the carry flag. -/
theorem popa_encodes_like_rdlong : SameCode {} .always {} (some ("wc", .wc))
    ("POPA", ["5"]) ("RDLONG", ["5", "--ptra"]) := by
  have hconstant : Operand.Constant "5" { value := 5 } :=
    Operand.constant_of_parse (by decide +kernel)
  have hflag : ∀ f ∈ some ("wc", Flag.wc), Keyword.find? f.1 = some (.flag f.2) := by
    decide +kernel
  exact (short_forms_encode_like_long_forms {} .always {} "5" (by decide +kernel)
    (some ("wc", .wc)) hflag).1 ⟨"POPA", .dst .none, some .wcz, "RDLONG", [], ["--ptra"]⟩
      (by decide) _ _ (hconstant {} {}) (by decide) (by decide)

end Instruction

end PropellerAsm
