import PropellerAsm.Encoding
import PropellerAsm.Encoding.Data
import PropellerAsm.Proofs.Expr.Uses

/-!
# The names that operands use

Which names the operands of a line use is written in the line: each operand is read in one of a few
ways, and the shape of an instruction or the kind of a directive says in which.  Operands are read
one after the other as long as commas stand between them.  Encoding records exactly their names, or
up to a fault those before it.
-/
namespace PropellerAsm

/-! ## Ways to read an operand -/

/-- How the text of an operand is read. -/
inductive Reading where
  /-- As an expression. -/
  | expression
  /-- As a pointer expression if it is one, and else as an expression. -/
  | pointer
  /-- As a register that an address instruction can load. -/
  | register
  /-- As a keyword if it is one, and else as an expression. -/
  | parameter
  /-- As a string if it is one, and else as an expression. -/
  | item
deriving DecidableEq, Repr

namespace Reading

/-- How a source is read, which may be a pointer expression if `allowed` says so. -/
def source (allowed : Bool) : Reading :=
  if allowed then pointer else expression

/-- The names that a text uses. -/
def names (scope text : String) : Reading → List String
  | expression => Operand.names scope text
  | pointer =>
    match Pointer.parse? text with
    | some p => p.index.elim [] (Operand.names scope)
    | none => Operand.names scope text
  | register => []
  | parameter => if (Keyword.find? text).isSome then [] else Operand.names scope text
  | item => if (Directive.stringItem? text).isSome then [] else Operand.names scope text

/-- The names that operands use, which are read one after the other as long as commas stand between
them. -/
def listed (scope : String) : List Reading → List Word → List String
  | [], _ => []
  | r :: rs, words =>
    match OperandText.take? words with
    | none => []
    | some (text, rest) =>
      r.names scope text.text ++ if text.comma then listed scope rs rest else []

theorem listed_none {scope : String} {rs : List Reading} {words : List Word}
    (h : OperandText.take? words = none) : listed scope rs words = [] := by
  cases rs with
  | nil => rfl
  | cons r rs => rw [listed, h]

theorem listed_cons {scope : String} {r : Reading} {rs : List Reading} {words rest : List Word}
    {text : OperandText} (h : OperandText.take? words = some (text, rest)) :
    listed scope (r :: rs) words =
      r.names scope text.text ++ if text.comma then listed scope rs rest else [] := by
  rw [listed, h]

theorem listed_singleton {scope : String} {r : Reading} {words rest : List Word}
    {text : OperandText} (h : OperandText.take? words = some (text, rest)) :
    listed scope [r] words = r.names scope text.text := by
  rw [listed_cons h, listed, ite_self, List.append_nil]

/-- The first operand comes first. -/
theorem listed_prefix (scope : String) (r : Reading) (rs : List Reading) (words : List Word) :
    listed scope [r] words <+: listed scope (r :: rs) words := by
  cases htake : OperandText.take? words with
  | none =>
    rw [listed_none htake]
    exact List.nil_prefix
  | some taken =>
    obtain ⟨text, rest⟩ := taken
    rw [listed_singleton htake, listed_cons htake]
    exact List.prefix_append _ _

end Reading

/-- How the parameters are read that give flags new values. -/
def FlagTarget.readings : FlagTarget → List Reading
  | .both => [.parameter, .parameter]
  | .carry => [.parameter]
  | .zero => [.parameter]

/-- How the operands of a shape are read. -/
def Shape.readings : Shape → List Reading
  | .nop => []
  | .bare _ => []
  | .dst _ _ => [.expression]
  | .testPin => [.expression]
  | .src => [.expression]
  | .dstSrc pointer _ => [.expression, .source pointer]
  | .testBit => [.expression, .expression]
  | .both pointer _ => [.expression, .source pointer]
  | .lane _ => [.expression, .expression, .expression]
  | .alter => [.expression, .expression]
  | .jump => [.expression]
  | .callD => [.expression, .expression]
  | .getRnd => [.expression]
  | .pointerAddress => [.register, .expression]
  | .address => [.expression]
  | .augment => [.expression]
  | .modify target => target.readings

/-- How the operands of a directive are read, if there are `count` words; only data comes in
lists. -/
def Directive.readings (count : Nat) : Directive → List Reading
  | .byte => List.replicate (count + 1) .item
  | .word => List.replicate (count + 1) .item
  | .long => List.replicate (count + 1) .item
  | .alignw => []
  | .alignl => []
  | _ => [.expression]

/-! ## Encoders without operands -/

/-- Words and symbols are as they were. -/
structure Cursor.Same (c c' : Cursor) : Prop where
  words : c'.words = c.words
  symbols : c'.symbols = c.symbols

instance : IsPreorder Cursor Cursor.Same where
  refl _ := ⟨rfl, rfl⟩
  trans _ _ _ h h' := ⟨h'.words.trans h.words, h'.symbols.trans h.symbols⟩

namespace Encoder

variable {α β : Type}

/-- The encoder reads no words and evaluates nothing, and its faults are not about labels. -/
structure Still (m : Encoder α) : Prop where
  keeps : Keeps Cursor.Same m
  fault : ∀ {c f c'}, m c = .error f c' → f.isRedefinition = false

theorem still_pure (x : α) : Still (pure x : Encoder α) := by
  refine ⟨keeps_pure x, ?_⟩
  intro c f c' h
  cases h

theorem still_throw {f : Fault} (hf : f.isRedefinition = false) :
    Still (throw f : Encoder α) := by
  refine ⟨keeps_throw f, ?_⟩
  intro c f' c' h
  cases h
  exact hf

theorem still_get : Still (get : Encoder Cursor) := by
  refine ⟨keeps_get, ?_⟩
  intro c f c' h
  cases h

theorem still_modify {g : Cursor → Cursor} (h : ∀ c, Cursor.Same c (g c)) :
    Still (modify g : Encoder PUnit) := by
  refine ⟨keeps_modify h, ?_⟩
  intro c f c' h
  cases h

theorem Still.bind {m : Encoder α} {f : α → Encoder β} (hm : Still m) (hf : ∀ x, Still (f x)) :
    Still (m >>= f) := by
  refine ⟨keeps_bind hm.keeps fun x => (hf x).keeps, ?_⟩
  intro c e c' h
  cases hx : m c with
  | error e' c₁ =>
    rw [bind_of_error hx] at h
    cases h
    exact hm.fault hx
  | ok x c₁ =>
    rw [bind_of_ok hx] at h
    exact (hf x).fault h

theorem still_raiseIf {c : Prop} [Decidable c] {f : Fault} (hf : f.isRedefinition = false) :
    Still (Fault.raiseIf c f : Encoder Unit) := by
  unfold Fault.raiseIf
  split
  · exact still_throw hf
  · exact still_pure ()

theorem Still.records {m : Encoder α} (hm : Still m) (line : Nat) :
    Records Cursor.symbols line (fun _ => []) m where
  ok := fun h => (hm.keeps.of_ok h).symbols
  error := fun h => ⟨hm.fault h, [], List.nil_prefix, (hm.keeps.of_error h).symbols⟩

/-- What follows finds the same words. -/
theorem Still.bind_records {m : Encoder α} {f : α → Encoder β} (hm : Still m) {line : Nat}
    (names : List Word → List String)
    (hf : ∀ x, Records Cursor.symbols line (fun c => names c.words) (f x)) :
    Records Cursor.symbols line (fun c => names c.words) (m >>= f) := by
  refine (hm.records line).bind hf ?_ fun _ => List.nil_prefix
  intro c x c' h
  rw [(hm.keeps.of_ok h).words]
  rfl

theorem still_peek? : Still peek? := still_get.bind fun _ => still_pure _

theorem still_finish : Still finish := still_get.bind fun _ => still_raiseIf rfl

theorem still_setField (f : Field) (value : Long) : Still (setField f value) :=
  still_modify fun _ => ⟨rfl, rfl⟩

theorem still_setBit (f : Field) (b : Bool) : Still (setBit f b) := by
  unfold setBit
  split
  · exact still_setField f 1
  · exact still_pure _

theorem still_register (side : Side) (value : Quad) : Still (register side value) :=
  (still_raiseIf rfl).bind fun _ => still_setField _ _

theorem still_immediate (side : Side) (operand : Operand) : Still (immediate side operand) := by
  unfold immediate
  split
  · exact (still_setField _ _).bind fun _ => still_pure _
  · exact (still_setField _ _).bind fun _ => still_pure _

theorem still_putDestination (place : ImmediateMark) (operand : Operand) (text : String) :
    Still (putDestination place operand text) := by
  unfold putDestination
  split
  · refine Still.bind ?_ fun _ => (still_immediate .dst operand).bind fun _ =>
      still_modify fun _ => ⟨rfl, rfl⟩
    cases place with
    | none => exact still_throw rfl
    | immediate => exact still_setField _ _
    | zero => exact still_setField _ _
  · exact still_register .dst _

theorem still_putSource (operand : Operand) : Still (putSource operand) := by
  unfold putSource
  split
  · exact (still_setField _ _).bind fun _ => (still_immediate .src operand).bind fun _ =>
      still_modify fun _ => ⟨rfl, rfl⟩
  · exact still_register .src _

/-! ## The words for flags -/

theorem records_skip (line : Nat) : Records Cursor.symbols line (fun _ => []) skip :=
  records_modify fun _ => rfl

theorem still_setFlags (carry zero : Bool) : Still (setFlags carry zero) :=
  (still_setBit _ carry).bind fun _ => still_setBit _ zero

theorem records_flags (line : Nat) (rule : Option FlagRule) :
    Records Cursor.symbols line (fun _ => []) (flags rule) := by
  cases rule with
  | none => exact still_finish.records line
  | some rule =>
    refine (still_peek?.records line).bind_quiet fun word => ?_
    cases word with
    | none => exact still_finish.records line
    | some word =>
      dsimp only
      split
      · split
        · refine ((still_setFlags _ _).records line).bind_quiet fun _ => ?_
          exact (records_skip line).bind_quiet fun _ => still_finish.records line
        · exact records_throw rfl
      · exact records_throw rfl

theorem records_testFlag (line : Nat) (f : Field) :
    Records Cursor.symbols line (fun _ => []) (testFlag f) := by
  refine (still_peek?.records line).bind_quiet fun word => ?_
  cases word with
  | none => exact records_throw rfl
  | some word =>
    dsimp only
    split
    · split
      · refine ((still_setFlags _ _).records line).bind_quiet fun _ => ?_
        exact (records_skip line).bind_quiet fun _ => records_modify fun _ => rfl
      · exact records_throw rfl
    · exact records_throw rfl

/-! ## Encoders of operands -/

variable {ctx : Context}

/-- The encoder records the names of operands that are read in these ways. -/
abbrev Uses (ctx : Context) (rs : List Reading) (m : Encoder α) : Prop :=
  Records Cursor.symbols ctx.line (fun c => Reading.listed ctx.scope rs c.words) m

/-- The encoder reads one operand, the text of which is part of its result. -/
structure Takes (ctx : Context) (r : Reading) (text : α → OperandText) (m : Encoder α) :
    Prop where
  uses : Uses ctx [r] m
  words : ∀ {c x c'}, m c = .ok x c' → OperandText.take? c.words = some (text x, c'.words)

/-- The next operand text, and the words behind it. -/
theorem operand?_cases (c : Cursor) :
    (∃ text rest, OperandText.take? c.words = some (text, rest) ∧
      operand? c = .ok (some text) { c with words := rest }) ∨
    (OperandText.take? c.words = none ∧ operand? c = .ok none c) := by
  have hget : (get : Encoder Cursor) c = .ok c c := rfl
  unfold operand?
  rw [bind_of_ok hget]
  cases htake : OperandText.take? c.words with
  | none => exact .inr ⟨rfl, rfl⟩
  | some taken =>
    obtain ⟨text, rest⟩ := taken
    exact .inl ⟨text, rest, rfl, rfl⟩

theorem operand_cases (part : Part) (c : Cursor) :
    (∃ text rest, OperandText.take? c.words = some (text, rest) ∧
      operand part c = .ok text { c with words := rest }) ∨
    (OperandText.take? c.words = none ∧ operand part c = .error (.missing part) c) := by
  unfold operand
  obtain ⟨text, rest, htake, hsome⟩ | ⟨htake, hnone⟩ := operand?_cases c
  · rw [bind_of_ok hsome]
    exact .inl ⟨text, rest, htake, rfl⟩
  · rw [bind_of_ok hnone]
    exact .inr ⟨htake, rfl⟩

/-- An encoder that goes on with the next operand text, and with no other word. -/
theorem takes_operand {r : Reading} {text : α → OperandText} {part : Part}
    {f : OperandText → Encoder α}
    (hf : ∀ t, Records Cursor.symbols ctx.line (fun _ => r.names ctx.scope t.text) (f t))
    (htext : ∀ {t c x c'}, f t c = .ok x c' → text x = t ∧ c'.words = c.words) :
    Takes ctx r text (operand part >>= f) where
  -- With an operand text the names are its own, without one there are none.
  uses := by
    constructor
    · intro c x c' h
      obtain ⟨t, rest, htake, hoperand⟩ | ⟨-, hoperand⟩ := operand_cases part c
      · rw [bind_of_ok hoperand] at h
        rw [(hf t).ok h, Reading.listed_singleton htake]
      · rw [bind_of_error hoperand] at h
        cases h
    · intro c e c' h
      obtain ⟨t, rest, htake, hoperand⟩ | ⟨htake, hoperand⟩ := operand_cases part c
      · rw [bind_of_ok hoperand] at h
        rw [Reading.listed_singleton htake]
        obtain ⟨he, uses, huses, hsymbols⟩ := (hf t).error h
        exact ⟨he, uses, huses, hsymbols⟩
      · rw [bind_of_error hoperand] at h
        cases h
        exact ⟨rfl, [], List.nil_prefix, rfl⟩
  words := by
    intro c x c' h
    obtain ⟨t, rest, htake, hoperand⟩ | ⟨-, hoperand⟩ := operand_cases part c
    · rw [bind_of_ok hoperand] at h
      obtain ⟨rfl, hwords⟩ := htext h
      rw [htake, hwords]
    · rw [bind_of_error hoperand] at h
      cases h

/-- What is done with an operand that has been read. -/
theorem Takes.still {r : Reading} {text : α → OperandText} {m : Encoder α}
    (hm : Takes ctx r text m) {text' : β → OperandText} {f : α → Encoder β}
    (hf : ∀ x, Still (f x)) (htext : ∀ {x c y c'}, f x c = .ok y c' → text' y = text x) :
    Takes ctx r text' (m >>= f) where
  uses := hm.uses.bind_quiet fun x => (hf x).records ctx.line
  words := by
    intro c y c' h
    obtain ⟨x, c₁, hx, hy⟩ := bind_eq_ok_iff.mp h
    rw [hm.words hx, htext hy, ((hf x).keeps.of_ok hy).words]

/-- Operands behind the first one are read only behind a comma. -/
theorem Takes.bind {r : Reading} {rs : List Reading} {text : α → OperandText} {m : Encoder α}
    (hm : Takes ctx r text m) {f : α → Encoder β}
    (hf : ∀ x, Records Cursor.symbols ctx.line
      (fun c => if (text x).comma then Reading.listed ctx.scope rs c.words else []) (f x)) :
    Uses ctx (r :: rs) (m >>= f) := by
  refine hm.uses.bind hf ?_ fun c => Reading.listed_prefix _ r rs _
  intro c x c' h
  rw [Reading.listed_cons (hm.words h), Reading.listed_singleton (hm.words h)]

/-- Without a comma the fault comes before anything else is read. -/
theorem expectComma_error {text : OperandText} (h : text.comma = false) (c : Cursor) :
    ∃ found, expectComma text c = .error (.expectedComma found) c := by
  have hpeek : peek? c = .ok c.words.head? c := rfl
  unfold expectComma
  rw [h]
  simp only [Bool.false_eq_true, if_false]
  rw [bind_of_ok hpeek]
  cases c.words.head? with
  | some word => exact ⟨word.text, rfl⟩
  | none => exact ⟨"end of line", rfl⟩

theorem uses_expectComma {rs : List Reading} {text : OperandText} {f : Unit → Encoder β}
    (hf : Uses ctx rs (f ())) : Records Cursor.symbols ctx.line
      (fun c => if text.comma then Reading.listed ctx.scope rs c.words else [])
      (expectComma text >>= f) := by
  cases hcomma : text.comma with
  | true =>
    unfold expectComma
    rw [hcomma]
    exact hf
  | false =>
    constructor
    · intro c x c' h
      obtain ⟨found, hfault⟩ := expectComma_error hcomma c
      rw [bind_of_error hfault] at h
      cases h
    · intro c e c' h
      obtain ⟨found, hfault⟩ := expectComma_error hcomma c
      rw [bind_of_error hfault] at h
      cases h
      exact ⟨rfl, [], List.nil_prefix, rfl⟩

/-! ## Operands one by one -/

theorem evaluate_eq_ok {text : String} {c c' : Cursor} {operand : Operand}
    (h : evaluate ctx text c = .ok operand c') :
    Operand.evaluate ctx text c.symbols = .ok operand c'.symbols ∧
      c' = { c with symbols := c'.symbols } := by
  unfold evaluate at h
  split at h
  · rename_i heval
    obtain ⟨rfl, rfl⟩ := EStateM.Result.ok.inj h
    exact ⟨heval, rfl⟩
  · cases h

theorem evaluate_words {text : String} {c c' : Cursor} {x : Operand}
    (h : evaluate ctx text c = .ok x c') : c'.words = c.words := by
  rw [(evaluate_eq_ok h).2]

theorem records_evaluate (ctx : Context) (text : String) :
    Records Cursor.symbols ctx.line (fun _ => Operand.names ctx.scope text)
      (evaluate ctx text) := by
  have hoperand := Operand.records_evaluate ctx text
  constructor
  · intro c x c' h
    exact hoperand.ok (evaluate_eq_ok h).1
  · intro c f c' h
    unfold evaluate at h
    split at h
    · cases h
    · rename_i symbols heval
      obtain ⟨rfl, rfl⟩ := EStateM.Result.error.inj h
      exact hoperand.error heval

theorem takes_value (part : Part) : Takes ctx .expression Prod.snd (value ctx part) := by
  refine takes_operand (fun t => ?_) ?_
  · exact (records_evaluate ctx t.text).bind_quiet fun _ => records_pure _
  · intro t c x c' h
    obtain ⟨operand, c₁, hevaluate, h⟩ := bind_eq_ok_iff.mp h
    obtain ⟨rfl, rfl⟩ := pure_eq_ok_iff.mp h
    exact ⟨rfl, evaluate_words hevaluate⟩

theorem takes_dst (place : ImmediateMark) : Takes ctx .expression id (dst ctx place) := by
  refine (takes_value _).still (fun x => (still_putDestination _ _ _).bind fun _ =>
    still_pure _) ?_
  rintro ⟨operand, text⟩ c y c' h
  obtain ⟨_, c₁, -, h⟩ := bind_eq_ok_iff.mp h
  exact (pure_eq_ok_iff.mp h).1.symm

theorem takes_src : Takes ctx .expression id (src ctx) := by
  refine (takes_value _).still (fun x => (still_putSource _).bind fun _ => still_pure _) ?_
  rintro ⟨operand, text⟩ c y c' h
  obtain ⟨_, c₁, -, h⟩ := bind_eq_ok_iff.mp h
  exact (pure_eq_ok_iff.mp h).1.symm

end Encoder

theorem Pointer.records_encode (ctx : Context) (p : Pointer) :
    Records id ctx.line (fun _ => p.index.elim [] (Operand.names ctx.scope)) (p.encode ctx) := by
  unfold encode
  cases p.index with
  | none => exact records_pure _
  | some text =>
    refine (Operand.records_evaluate ctx text).bind_quiet fun operand => ?_
    dsimp only
    split
    · exact records_pure _
    · exact records_throw rfl

namespace Encoder

variable {α β : Type} {ctx : Context}

theorem pointerField?_none {text : String} (h : Pointer.parse? text = none) :
    pointerField? ctx text = pure none := by
  funext c
  unfold pointerField?
  rw [h]
  rfl

/-- A pointer expression gives a field, and records the names of its index. -/
theorem records_pointerField? {text : String} {p : Pointer} (h : Pointer.parse? text = some p) :
    Records Cursor.symbols ctx.line (fun _ => p.index.elim [] (Operand.names ctx.scope))
      (pointerField? ctx text) ∧
    ∀ {c x c'}, pointerField? ctx text c = .ok x c' → x.isSome = true ∧ c'.words = c.words := by
  have hencode := p.records_encode ctx
  unfold pointerField?
  rw [h]
  dsimp only
  refine ⟨⟨?_, ?_⟩, ?_⟩
  · intro c x c' hrun
    split at hrun
    · rename_i symbols hfield
      obtain ⟨-, rfl⟩ := EStateM.Result.ok.inj hrun
      exact hencode.ok hfield
    · cases hrun
  · intro c f c' hrun
    split at hrun
    · cases hrun
    · rename_i symbols hfield
      obtain ⟨rfl, rfl⟩ := EStateM.Result.error.inj hrun
      exact hencode.error hfield
  · intro c x c' hrun
    split at hrun
    · obtain ⟨rfl, rfl⟩ := EStateM.Result.ok.inj hrun
      exact ⟨rfl, rfl⟩
    · cases hrun

theorem still_putPointer (ctx : Context) (text : String) (field : Long) :
    Still (putPointerOr ctx text (some field)) :=
  (still_setField _ _).bind fun _ => still_setField _ _

theorem records_putExpression (ctx : Context) (text : String) :
    Records Cursor.symbols ctx.line (fun _ => Operand.names ctx.scope text)
      (putPointerOr ctx text none) :=
  (records_evaluate ctx text).bind_quiet fun operand => (still_putSource operand).records ctx.line

theorem takes_srcOrPointer : Takes ctx .pointer id (srcOrPointer ctx) := by
  refine takes_operand (fun t => ?_) ?_
  · cases hparse : Pointer.parse? t.text with
    | none =>
      rw [pointerField?_none hparse, pure_bind]
      unfold Reading.names
      rw [hparse]
      exact (records_putExpression ctx t.text).bind_quiet fun _ => records_pure _
    | some p =>
      obtain ⟨hfield, hsome⟩ := @records_pointerField? ctx _ _ hparse
      unfold Reading.names
      rw [hparse]
      -- The field is there, so that nothing else is evaluated.
      have hput : ∀ field : Option Long, Records Cursor.symbols ctx.line
          (fun _ => if field.isSome then [] else Operand.names ctx.scope t.text)
          (do putPointerOr ctx t.text field; return t) := by
        intro field
        cases field with
        | none => exact (records_putExpression ctx t.text).bind_quiet fun _ => records_pure _
        | some field =>
          exact ((still_putPointer ctx _ field).records _).bind_quiet fun _ => records_pure _
      refine hfield.bind hput ?_ fun _ => List.prefix_rfl
      intro c field c' h
      rw [(hsome h).1, if_pos rfl, List.append_nil]
  · intro t c x c' h
    obtain ⟨field, c₁, hfield, h⟩ := bind_eq_ok_iff.mp h
    obtain ⟨_, c₂, hput, h⟩ := bind_eq_ok_iff.mp h
    obtain ⟨rfl, rfl⟩ := pure_eq_ok_iff.mp h
    refine ⟨rfl, ?_⟩
    have hwords : c₁.words = c.words := by
      cases hparse : Pointer.parse? t.text with
      | none =>
        rw [pointerField?_none hparse] at hfield
        rw [(pure_eq_ok_iff.mp hfield).2]
      | some p => exact ((@records_pointerField? ctx _ _ hparse).2 hfield).2
    rw [← hwords]
    cases field with
    | some field => exact ((still_putPointer ctx _ field).keeps.of_ok hput).words
    | none =>
      obtain ⟨operand, c₃, hevaluate, hput⟩ := bind_eq_ok_iff.mp hput
      rw [((still_putSource operand).keeps.of_ok hput).words, evaluate_words hevaluate]

theorem takes_source (pointer : Bool) :
    Takes ctx (Reading.source pointer) id (source ctx pointer) := by
  cases pointer with
  | true => exact takes_srcOrPointer
  | false => exact takes_src

/-- A source that may be left out. -/
theorem uses_sourceAfter (pointer : Bool) (value : Quad) (text : OperandText) :
    Records Cursor.symbols ctx.line
      (fun c => if text.comma then Reading.listed ctx.scope [.source pointer] c.words else [])
      (sourceAfter ctx pointer value text) := by
  unfold sourceAfter
  cases text.comma with
  | true => exact (takes_source pointer).uses.bind_quiet fun _ => records_pure _
  | false =>
    refine (still_peek?.bind fun word => ?_).records ctx.line
    cases word with
    | none => exact still_register .src value
    | some word =>
      dsimp only
      split
      · exact still_throw rfl
      · exact still_register .src value

theorem uses_dstSrc (pointer : Bool) :
    Uses ctx [.expression, Reading.source pointer] (dstSrc ctx pointer) := by
  refine (takes_value .destination).bind fun x => ?_
  obtain ⟨operand, text⟩ := x
  let names : List Word → List String := fun words =>
    if text.comma then Reading.listed ctx.scope [.source pointer] words else []
  have hsource := @uses_sourceAfter ctx pointer operand.value text
  have hregister := (still_register .dst operand.value).bind_records names fun _ => hsource
  exact (still_raiseIf rfl).bind_records names fun _ => hregister

theorem uses_requireImmediate (part : Part) :
    Uses ctx [.expression] (requireImmediate ctx part) := by
  refine (takes_value part).uses.bind_quiet fun x => ?_
  exact ((still_raiseIf rfl).bind fun _ => still_pure _).records ctx.line

theorem uses_laneIndex (lane : Lane) : Uses ctx [.expression] (laneIndex ctx lane) :=
  (uses_requireImmediate _).bind_quiet fun _ =>
    ((still_raiseIf rfl).bind fun _ => still_setField _ _).records ctx.line

theorem takes_pointerRegister : Takes ctx .register id pointerRegister := by
  refine takes_operand (fun t => ?_) ?_
  · split
    · exact ((still_setField _ _).bind fun _ => still_pure _).records ctx.line
    · exact records_throw rfl
  · intro t c x c' h
    cases hcode : Keyword.pointer? t.text with
    | some code =>
      rw [hcode] at h
      obtain ⟨_, c₁, hset, h⟩ := bind_eq_ok_iff.mp h
      obtain ⟨rfl, rfl⟩ := pure_eq_ok_iff.mp h
      exact ⟨rfl, ((still_setField _ _).keeps.of_ok hset).words⟩
    | none =>
      rw [hcode] at h
      exact absurd h throw_ne_ok

theorem uses_address : Uses ctx [.expression] (address ctx) := by
  refine (uses_requireImmediate _).bind_quiet fun operand => ?_
  refine ((still_raiseIf rfl).bind fun _ => ?_).records ctx.line
  dsimp only
  split
  · exact (still_setField _ _).bind fun _ => still_setField _ _
  · exact still_setField _ _

theorem uses_augment : Uses ctx [.expression] (augment ctx) :=
  (uses_requireImmediate _).bind_quiet fun _ => (still_setField _ _).records ctx.line

theorem takes_modczParameter : Takes ctx .parameter Prod.snd (modczParameter ctx) := by
  refine takes_operand (fun t => ?_) ?_
  · unfold Reading.names
    cases hfind : Keyword.find? t.text with
    | none =>
      refine (records_evaluate ctx t.text).bind_quiet fun operand => ?_
      exact ((still_raiseIf rfl).bind fun _ => still_pure _).records ctx.line
    | some keyword =>
      cases keyword with
      | modcz code => exact records_pure _
      | _ => exact records_throw rfl
  · intro t c x c' h
    cases hfind : Keyword.find? t.text with
    | none =>
      rw [hfind] at h
      obtain ⟨operand, c₁, hevaluate, h⟩ := bind_eq_ok_iff.mp h
      obtain ⟨_, c₂, hcheck, h⟩ := bind_eq_ok_iff.mp h
      obtain ⟨-, rfl⟩ := raiseIf_eq_ok_iff.mp hcheck
      obtain ⟨rfl, rfl⟩ := pure_eq_ok_iff.mp h
      exact ⟨rfl, evaluate_words hevaluate⟩
    | some keyword =>
      rw [hfind] at h
      cases keyword with
      | modcz code =>
        obtain ⟨rfl, rfl⟩ := pure_eq_ok_iff.mp h
        exact ⟨rfl, rfl⟩
      | _ => exact absurd h throw_ne_ok

theorem uses_modifyFlags (target : FlagTarget) :
    Uses ctx target.readings (modifyFlags ctx target) := by
  cases target with
  | both =>
    refine takes_modczParameter.bind fun x => uses_expectComma ?_
    exact takes_modczParameter.uses.bind_quiet fun _ => (still_setField _ _).records ctx.line
  | carry => exact takes_modczParameter.uses.bind_quiet fun _ => (still_setField _ _).records _
  | zero => exact takes_modczParameter.uses.bind_quiet fun _ => (still_setField _ _).records _

end Encoder

/-! ## Instructions and directives -/

namespace Instruction

open Encoder

/-- Whatever the shape, its operands are read as it says. -/
theorem uses_operands (ctx : Context) (shape : Shape) :
    Uses ctx shape.readings (operands ctx shape) := by
  have hfinish : Records Cursor.symbols ctx.line (fun _ => []) finish :=
    still_finish.records ctx.line
  cases shape with
  | nop =>
    refine Records.bind_quiet (records_modify ?_) fun _ => hfinish
    exact fun _ => rfl
  | bare rule => exact records_flags ctx.line rule
  | dst place rule => exact (takes_dst place).uses.bind_quiet fun _ => records_flags ctx.line rule
  | testPin =>
    refine (takes_dst _).uses.bind_quiet fun _ => ?_
    exact (records_testFlag ctx.line _).bind_quiet fun _ => hfinish
  | src => exact takes_src.uses.bind_quiet fun _ => hfinish
  | dstSrc pointer rule =>
    exact (uses_dstSrc pointer).bind_quiet fun _ => records_flags ctx.line rule
  | testBit =>
    refine (uses_dstSrc false).bind_quiet fun _ => ?_
    exact (records_testFlag ctx.line _).bind_quiet fun _ => hfinish
  | both pointer rule =>
    refine (takes_dst _).bind fun text => uses_expectComma ?_
    exact (takes_source pointer).uses.bind_quiet fun _ => records_flags ctx.line rule
  | lane l =>
    refine (takes_dst _).bind fun text => uses_expectComma ?_
    refine takes_src.bind fun text => uses_expectComma ?_
    exact (uses_laneIndex l).bind_quiet fun _ => hfinish
  | alter =>
    refine (takes_dst _).bind fun text => uses_expectComma ?_
    exact takes_src.uses.bind_quiet fun _ => hfinish
  | jump => exact (takes_dst _).uses.bind_quiet fun _ => records_flags ctx.line _
  | callD => exact (uses_dstSrc false).bind_quiet fun _ => records_flags ctx.line _
  | getRnd => exact (takes_dst _).uses.bind_quiet fun _ => records_flags ctx.line _
  | pointerAddress =>
    refine takes_pointerRegister.bind fun text => uses_expectComma ?_
    exact uses_address.bind_quiet fun _ => hfinish
  | address => exact uses_address.bind_quiet fun _ => hfinish
  | augment => exact uses_augment.bind_quiet fun _ => hfinish
  | modify target => exact (uses_modifyFlags target).bind_quiet fun _ => records_flags ctx.line _

end Instruction

/-- Running an encoder on words. -/
theorem Encoder.Uses.run {α : Type} {ctx : Context} {rs : List Reading} {m : Encoder α}
    (hm : Uses ctx rs m) (words : List Word) (opcode : Opcode) :
    Records id ctx.line (fun _ => Reading.listed ctx.scope rs words) (m.run words opcode) := by
  constructor
  · intro t x t' h
    unfold Encoder.run at h
    split at h
    · rename_i cursor hrun
      obtain ⟨-, rfl⟩ := EStateM.Result.ok.inj h
      exact hm.ok hrun
    · cases h
  · intro t f t' h
    unfold Encoder.run at h
    split at h
    · cases h
    · rename_i cursor hrun
      obtain ⟨rfl, rfl⟩ := EStateM.Result.error.inj h
      exact hm.error hrun

/-- Encoding an instruction records the names in the operands of the form that is selected. -/
theorem Instruction.records_encode (ctx : Context) (mnemonic : String) (form : Form)
    (cond : Condition) (words : List Word) :
    Records id ctx.line
      (fun _ => Reading.listed ctx.scope (selectForm mnemonic form words).shape.readings words)
      (encode ctx mnemonic form cond words) :=
  (Encoder.Uses.run (uses_operands ctx _) words _).bind_quiet fun _ => records_pure _

namespace Directive

open Encoder

theorem records_item (ctx : Context) (size : Nat) (text : String) :
    Records Cursor.symbols ctx.line (fun _ => Reading.item.names ctx.scope text)
      (item ctx size text) := by
  unfold item Reading.names
  cases stringItem? text with
  | some content => exact records_pure _
  | none => exact (records_evaluate ctx text).bind_quiet fun _ => records_pure _

theorem takes_item (ctx : Context) (size : Nat) :
    Takes ctx .item Prod.snd (do
      let text ← operand .data
      let bytes ← item ctx size text.text
      return (bytes, text) : Encoder (List UInt8 × OperandText)) := by
  refine takes_operand (fun t => ?_) ?_
  · exact (records_item ctx size t.text).bind_quiet fun _ => records_pure _
  · intro t c x c' h
    obtain ⟨bytes, c₁, hitem, h⟩ := bind_eq_ok_iff.mp h
    obtain ⟨rfl, rfl⟩ := pure_eq_ok_iff.mp h
    refine ⟨rfl, ?_⟩
    unfold item at hitem
    cases hstring : stringItem? t.text with
    | some content =>
      rw [hstring] at hitem
      rw [(pure_eq_ok_iff.mp hitem).2]
    | none =>
      rw [hstring] at hitem
      obtain ⟨operand, c₂, hevaluate, hitem⟩ := bind_eq_ok_iff.mp hitem
      obtain ⟨-, rfl⟩ := pure_eq_ok_iff.mp hitem
      exact evaluate_words hevaluate

theorem uses_items (ctx : Context) (size bound : Nat) :
    Uses ctx (List.replicate bound .item) (items ctx size bound) := by
  induction bound with
  | zero => exact records_pure _
  | succ bound ih =>
    have hitems : items ctx size (bound + 1) = (do
        let text ← operand .data
        let bytes ← item ctx size text.text
        return (bytes, text) : Encoder (List UInt8 × OperandText)) >>= fun x =>
          if x.2.comma then return x.1 ++ (← items ctx size bound) else return x.1 := by
      rw [items]
      simp only [bind_assoc, pure_bind]
    rw [hitems, List.replicate_succ]
    refine (takes_item ctx size).bind fun x => ?_
    cases x.2.comma with
    | true => exact ih.bind_quiet fun _ => records_pure _
    | false => exact records_pure _

theorem records_data (ctx : Context) (size : Nat) (words : List Word) :
    Records id ctx.line
      (fun _ => Reading.listed ctx.scope (List.replicate (words.length + 1) .item) words)
      (data ctx size words) := by
  have hlist := (uses_items ctx size (words.length + 1)).bind_quiet fun bytes =>
    (still_finish.bind fun _ => still_pure bytes).records ctx.line
  exact (Uses.run hlist words {}).bind_quiet fun _ => records_pure _

/-- The argument of a directive may be left out. -/
theorem records_argument? (ctx : Context) (words : List Word) :
    Records id ctx.line (fun _ => Reading.listed ctx.scope [.expression] words)
      (argument? ctx words) := by
  unfold argument?
  refine (Encoder.Uses.run ?_ words {}).bind_quiet fun _ => records_pure _
  have hsome : ∀ text : OperandText, Records Cursor.symbols ctx.line
      (fun _ => Operand.names ctx.scope text.text) (do
        let operand ← Encoder.evaluate ctx text.text
        Encoder.finish
        return some operand.value : Encoder (Option Quad)) := fun text =>
    (records_evaluate ctx text.text).bind_quiet fun _ =>
      (still_finish.bind fun _ => still_pure _).records ctx.line
  have hnone : Still (do
      Encoder.finish
      return none : Encoder (Option Quad)) := still_finish.bind fun _ => still_pure _
  constructor
  · intro c x c' h
    obtain ⟨text, rest, htake, hoperand⟩ | ⟨htake, hoperand⟩ := operand?_cases c
    · rw [bind_of_ok hoperand] at h
      rw [(hsome text).ok h, Reading.listed_singleton htake]
      rfl
    · rw [bind_of_ok hoperand] at h
      rw [(hnone.records ctx.line).ok h, Reading.listed_none htake]
  · intro c f c' h
    obtain ⟨text, rest, htake, hoperand⟩ | ⟨htake, hoperand⟩ := operand?_cases c
    · rw [bind_of_ok hoperand] at h
      rw [Reading.listed_singleton htake]
      obtain ⟨hf, uses, huses, hsymbols⟩ := (hsome text).error h
      exact ⟨hf, uses, huses, hsymbols⟩
    · rw [bind_of_ok hoperand] at h
      rw [Reading.listed_none htake]
      exact (hnone.records ctx.line).error h

theorem records_assigned (ctx : Context) (words : List Word) :
    Records id ctx.line (fun _ => Reading.listed ctx.scope [.expression] words)
      (assigned ctx words) := by
  have hsingle := (@takes_value ctx .expression).uses.bind_quiet fun x =>
    (still_finish.bind fun _ => still_pure x.1.value).records ctx.line
  exact (Uses.run hsingle words {}).bind_quiet fun _ => records_pure _

end Directive

end PropellerAsm
