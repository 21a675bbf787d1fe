import PropellerAsm.Assembly.Statement
import PropellerAsm.Proofs.Computation

/-!
# What a statement asks for

What a statement goes through to have an effect, told apart once, and the effects that follow:
nothing, an instruction, data, reserved places behind the program counter, an origin from one of the
two origin directives, or a number for the label.
-/
namespace PropellerAsm

/-- The word is an origin directive. -/
def Token.isOrigin : Token → Bool
  | .keyword (.directive .org) => true
  | .keyword (.directive .orgh) => true
  | _ => false

namespace Statement

/-! ## Directives -/

/-- Reserved places lie behind the program counter, and inside the memory. -/
theorem reserve_eq_ok {ctx : Context} {words : List Word} {t t' : SymbolTable} {effect : Effect}
    (h : reserve ctx words t = .ok effect t') :
    ∃ next, effect = .reserve next ∧ ctx.pc.toNat ≤ next.toNat := by
  obtain ⟨argument, t₁, -, h⟩ := bind_eq_ok_iff.mp h
  obtain ⟨_, t₂, hcheck, h⟩ := bind_eq_ok_iff.mp h
  obtain ⟨hlimit, rfl⟩ := raiseIf_eq_ok_iff.mp hcheck
  obtain ⟨rfl, -⟩ := pure_eq_ok_iff.mp h
  refine ⟨_, rfl, ?_⟩
  have hnext := Nat.mod_eq_of_lt (Nat.lt_of_le_of_lt (Nat.not_lt.mp hlimit)
    (show Address.memorySize < 2 ^ 32 by decide))
  rw [BitVec.toNat_ofNat, hnext]
  exact Nat.le_add_right _ _

/-- Both origin directives read an address, which has a default, refuse it from a limit on, and move
to it. -/
theorem origin_eq_ok {ctx : Context} {words : List Word} {start : Quad} {limit : Nat}
    {t t' : SymbolTable} {effect : Effect} (refusal : Quad → Fault) (h : (do
      let org := (← Directive.argument? ctx words).getD start
      Fault.raiseIf (limit ≤ org.toNat) (refusal org)
      return .origin (org.setWidth 32) : Evaluator Effect) t = .ok effect t') :
    ∃ argument, Directive.argument? ctx words t = .ok argument t' ∧
      (argument.getD start).toNat < limit ∧
      effect = .origin ((argument.getD start).setWidth 32) := by
  obtain ⟨argument, t₁, hargument, h⟩ := bind_eq_ok_iff.mp h
  obtain ⟨_, t₂, hcheck, h⟩ := bind_eq_ok_iff.mp h
  obtain ⟨hlimit, rfl⟩ := raiseIf_eq_ok_iff.mp hcheck
  obtain ⟨rfl, rfl⟩ := pure_eq_ok_iff.mp h
  exact ⟨argument, hargument, Nat.not_le.mp hlimit, rfl⟩

theorem data_eq_ok {ctx : Context} {size : Nat} {words : List Word} {t t' : SymbolTable}
    {effect : Effect} (h : (do
      return .data (← Directive.data ctx size words) : Evaluator Effect) t = .ok effect t') :
    ∃ bytes, effect = .data bytes := by
  obtain ⟨bytes, t₁, -, h⟩ := bind_eq_ok_iff.mp h
  obtain ⟨rfl, -⟩ := pure_eq_ok_iff.mp h
  exact ⟨bytes, rfl⟩

theorem fill_eq_ok {ctx : Context} {words : List Word} {t t' : SymbolTable} {effect : Effect}
    (h : fill ctx words t = .ok effect t') : ∃ bytes, effect = .data bytes := by
  obtain ⟨argument, t₁, -, h⟩ := bind_eq_ok_iff.mp h
  cases argument with
  | none => exact absurd h throw_ne_ok
  | some target =>
    obtain ⟨_, t₂, -, h⟩ := bind_eq_ok_iff.mp h
    obtain ⟨_, t₃, -, h⟩ := bind_eq_ok_iff.mp h
    obtain ⟨rfl, -⟩ := pure_eq_ok_iff.mp h
    exact ⟨_, rfl⟩

theorem align_eq_ok {ctx : Context} {size : Nat} {words : List Word} {t t' : SymbolTable}
    {effect : Effect} (h : align ctx size words t = .ok effect t') :
    effect = .nothing ∨ ∃ bytes, effect = .data bytes := by
  cases words with
  | cons word words => exact absurd h throw_ne_ok
  | nil =>
    rw [align] at h
    split at h
    · obtain ⟨rfl, -⟩ := pure_eq_ok_iff.mp h
      exact .inr ⟨_, rfl⟩
    · obtain ⟨rfl, -⟩ := pure_eq_ok_iff.mp h
      exact .inl rfl

theorem directive_eq_ok {ctx : Context} {words : List Word} {d : Directive} {t t' : SymbolTable}
    {effect : Effect} (h : directive ctx words d t = .ok effect t') :
    effect = .nothing ∨ (∃ bytes, effect = .data bytes) ∨
      (∃ next, effect = .reserve next ∧ ctx.pc.toNat ≤ next.toNat) ∨
      (∃ org, effect = .origin org ∧ Token.isOrigin (.keyword (.directive d)) = true) := by
  cases d with
  | byte => exact .inr (.inl (data_eq_ok h))
  | word => exact .inr (.inl (data_eq_ok h))
  | long => exact .inr (.inl (data_eq_ok h))
  | res => exact .inr (.inr (.inl (reserve_eq_ok h)))
  | fit =>
    obtain ⟨argument, t₁, -, h⟩ := bind_eq_ok_iff.mp h
    obtain ⟨_, t₂, -, h⟩ := bind_eq_ok_iff.mp h
    obtain ⟨rfl, -⟩ := pure_eq_ok_iff.mp h
    exact .inl rfl
  | org =>
    obtain ⟨argument, -, -, rfl⟩ := origin_eq_ok .originExceeded h
    exact .inr (.inr (.inr ⟨_, rfl, rfl⟩))
  | orgh =>
    obtain ⟨argument, -, -, rfl⟩ := origin_eq_ok (fun _ => .hubExceeded _) h
    exact .inr (.inr (.inr ⟨_, rfl, rfl⟩))
  | orgf => exact .inr (.inl (fill_eq_ok h))
  | alignw => exact (align_eq_ok h).imp_right .inl
  | alignl => exact (align_eq_ok h).imp_right .inl

/-! ## Statements -/

/-- Without a condition all words are left. -/
theorem takeCondition_unguarded {words rest : List Word} {guard : Guard}
    (h : takeCondition words = .ok (guard, rest)) (hguard : guard.word = none) : rest = words := by
  unfold takeCondition at h
  split at h
  · obtain ⟨-, rfl⟩ := Prod.mk.inj (Except.ok.inj h)
    rfl
  · split at h
    · split at h
      · obtain ⟨rfl, -⟩ := Prod.mk.inj (Except.ok.inj h)
        cases hguard
      · split at h
        · cases h
        · obtain ⟨rfl, -⟩ := Prod.mk.inj (Except.ok.inj h)
          cases hguard
    · obtain ⟨-, rfl⟩ := Prod.mk.inj (Except.ok.inj h)
      rfl

theorem refuse_eq_ok {guard : Guard} {u : Unit} {t t' : SymbolTable}
    (h : guard.refuse t = .ok u t') : guard.word = none ∧ t = t' := by
  unfold Guard.refuse at h
  cases hword : guard.word with
  | none =>
    rw [hword] at h
    exact ⟨rfl, (pure_eq_ok_iff.mp h).2⟩
  | some word =>
    rw [hword] at h
    exact absurd h throw_ne_ok

theorem assignment_eq_ok {ctx : Context} {labelled : Bool} {words : List Word}
    {t t' : SymbolTable} {effect : Effect}
    (h : assignment ctx labelled words t = .ok effect t') :
    labelled = true ∧ ∃ n, Directive.assigned ctx words t = .ok n t' ∧
      effect = .assign (numberValue n) := by
  obtain ⟨_, t₁, hcheck, h⟩ := bind_eq_ok_iff.mp h
  obtain ⟨hlabelled, rfl⟩ := raiseIf_eq_ok_iff.mp hcheck
  obtain ⟨n, t₂, hassigned, h⟩ := bind_eq_ok_iff.mp h
  obtain ⟨rfl, rfl⟩ := pure_eq_ok_iff.mp h
  exact ⟨by simpa using hlabelled, n, hassigned, rfl⟩

/-- What a statement goes through to have an effect.  Behind a condition there is nothing or an
instruction, so the word of a directive or of an assignment is the first one. -/
inductive Asks (ctx : Context) (labelled : Bool) (words : List Word) (t : SymbolTable) :
    Effect → SymbolTable → Prop where
  | nothing {guard} (taken : takeCondition words = .ok (guard, [])) :
      Asks ctx labelled words t .nothing t
  | instruction {guard first rest form e t'}
      (taken : takeCondition words = .ok (guard, first :: rest))
      (token : first.token = .keyword (.instruction form))
      (encoded : Instruction.encode ctx first.text form guard.code rest t = .ok e t') :
      Asks ctx labelled words t (.code first.text e) t'
  | directive {first rest d effect t'} (stands : words = first :: rest)
      (token : first.token = .keyword (.directive d))
      (read : directive ctx rest d t = .ok effect t') : Asks ctx labelled words t effect t'
  | assignment {first rest effect t'} (stands : words = first :: rest)
      (token : first.token = .keyword .assign)
      (read : assignment ctx labelled rest t = .ok effect t') :
      Asks ctx labelled words t effect t'

/-- The one case analysis of a statement: every word that starts one is told apart here. -/
theorem asks_of_effect {ctx : Context} {labelled : Bool} {words : List Word} {t t' : SymbolTable}
    {effect : Effect} (h : Statement.effect ctx labelled words t = .ok effect t') :
    Asks ctx labelled words t effect t' := by
  unfold Statement.effect at h
  cases htake : takeCondition words with
  | error f =>
    rw [htake] at h
    exact absurd h throw_ne_ok
  | ok taken =>
    rw [htake] at h
    obtain ⟨guard, _ | ⟨first, rest⟩⟩ := taken
    · obtain ⟨rfl, rfl⟩ := pure_eq_ok_iff.mp h
      exact .nothing htake
    · dsimp only at h
      -- The first word behind the condition says what the statement is.
      cases htoken : first.token with
      | plain =>
        rw [htoken] at h
        obtain ⟨constant, t₁, -, h⟩ := bind_eq_ok_iff.mp h
        obtain ⟨_, t₂, -, h⟩ := bind_eq_ok_iff.mp h
        exact absurd h throw_ne_ok
      | comment =>
        rw [htoken] at h
        exact absurd h throw_ne_ok
      | keyword k =>
        rw [htoken] at h
        cases k with
        | instruction form =>
          obtain ⟨e, t₁, hencode, h⟩ := bind_eq_ok_iff.mp h
          obtain ⟨rfl, rfl⟩ := pure_eq_ok_iff.mp h
          exact .instruction htake htoken hencode
        | directive d =>
          -- A condition would have been refused, and without one nothing is in front.
          obtain ⟨_, t₁, hrefuse, h⟩ := bind_eq_ok_iff.mp h
          obtain ⟨hguard, rfl⟩ := refuse_eq_ok hrefuse
          exact .directive (takeCondition_unguarded htake hguard).symm htoken h
        | assign =>
          obtain ⟨_, t₁, hrefuse, h⟩ := bind_eq_ok_iff.mp h
          obtain ⟨hguard, rfl⟩ := refuse_eq_ok hrefuse
          exact .assignment (takeCondition_unguarded htake hguard).symm htoken h
        | condition code => exact absurd h throw_ne_ok
        | flag f => exact absurd h throw_ne_ok
        | register r => exact absurd h throw_ne_ok
        | modcz code => exact absurd h throw_ne_ok

/-- All that a statement can ask for. -/
theorem effect_eq_ok {ctx : Context} {labelled : Bool} {words : List Word} {t t' : SymbolTable}
    {effect : Effect} (h : Statement.effect ctx labelled words t = .ok effect t') :
    effect = .nothing ∨ (∃ mnemonic e, effect = .code mnemonic e) ∨
      (∃ bytes, effect = .data bytes) ∨
      (∃ next, effect = .reserve next ∧ ctx.pc.toNat ≤ next.toNat) ∨
      (∃ org first rest, effect = .origin org ∧ words = first :: rest ∧
        first.token.isOrigin = true) ∨
      (∃ n, effect = .assign (numberValue n)) := by
  cases asks_of_effect h with
  | nothing taken => exact .inl rfl
  | instruction taken token encoded => exact .inr (.inl ⟨_, _, rfl⟩)
  | directive stands token read =>
    obtain rfl | hdata | hreserve | ⟨org, rfl, horigin⟩ := directive_eq_ok read
    · exact .inl rfl
    · exact .inr (.inr (.inl hdata))
    · exact .inr (.inr (.inr (.inl hreserve)))
    · rw [← token] at horigin
      exact .inr (.inr (.inr (.inr (.inl ⟨org, _, _, rfl, stands, horigin⟩))))
  | assignment stands token read =>
    obtain ⟨-, n, -, rfl⟩ := assignment_eq_ok read
    exact .inr (.inr (.inr (.inr (.inr ⟨n, rfl⟩))))

/-- Only an assignment assigns. -/
theorem effect_ne_assign {ctx : Context} {labelled : Bool} {words : List Word}
    {t t' : SymbolTable} {effect : Effect}
    (hwords : ∀ word ∈ words.head?, word.token ≠ .keyword .assign)
    (h : Statement.effect ctx labelled words t = .ok effect t') (value : Value) :
    effect ≠ .assign value := by
  rintro rfl
  cases asks_of_effect h with
  | directive stands token read =>
    obtain h | ⟨_, h⟩ | ⟨_, h, -⟩ | ⟨_, h, -⟩ := directive_eq_ok read
    · cases h
    · cases h
    · cases h
    · cases h
  | assignment stands token read =>
    rw [stands] at hwords
    exact hwords _ rfl token

end Statement

end PropellerAsm
