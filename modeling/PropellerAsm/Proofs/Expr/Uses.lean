import PropellerAsm.Proofs.Computation
import PropellerAsm.Proofs.Expr.Evaluation

/-!
# The names that expressions use

Evaluation records the symbols of an expression in the symbol table, from left to right and each as
often as it stands there; a fault leaves those that stand before it.  `Records` says this of any
computation over a symbol table, so that it can be carried on to operands and to whole lines.
-/
namespace PropellerAsm

/-- The fault is about a label that is already bound. -/
def Fault.isRedefinition : Fault → Bool
  | .redefinition .. => true
  | _ => false

/-! ## Recorded names -/

section Records

variable {σ α β : Type}

/-- What a computation does to the symbols in its state: it records all of `names` as used on a
line, or those up to a fault.  The fault is not about a label. -/
structure Records (symbols : σ → SymbolTable) (line : Nat) (names : σ → List String)
    (m : EStateM Fault σ α) : Prop where
  ok : ∀ {s x s'}, m s = .ok x s' → symbols s' = (symbols s).addReferences line (names s)
  error : ∀ {s f s'}, m s = .error f s' → f.isRedefinition = false ∧
    ∃ uses, uses <+: names s ∧ symbols s' = (symbols s).addReferences line uses

variable {symbols : σ → SymbolTable} {line : Nat} {names : σ → List String}

theorem records_pure (x : α) : Records symbols line (fun _ => []) (pure x : EStateM Fault σ α) where
  ok := by
    intro s y s' h
    obtain ⟨-, rfl⟩ := pure_eq_ok_iff.mp h
    rfl
  error := by
    intro s f s' h
    cases h

theorem records_throw {f : Fault} (hf : f.isRedefinition = false) :
    Records symbols line names (throw f : EStateM Fault σ α) where
  ok := fun h => absurd h throw_ne_ok
  error := by
    intro s f' s' h
    cases h
    exact ⟨hf, [], List.nil_prefix, rfl⟩

theorem records_raiseIf {c : Prop} [Decidable c] {f : Fault} (hf : f.isRedefinition = false) :
    Records symbols line (fun _ => []) (Fault.raiseIf c f : EStateM Fault σ Unit) := by
  unfold Fault.raiseIf
  split
  · exact records_throw hf
  · exact records_pure ()

theorem records_modify {g : σ → σ} (h : ∀ s, symbols (g s) = symbols s) :
    Records symbols line (fun _ => []) (modify g : EStateM Fault σ PUnit) where
  ok := by
    intro s x s' hm
    obtain rfl := modify_eq_ok_iff.mp hm
    exact h s
  error := by
    intro s f s' hm
    cases hm

theorem records_get : Records symbols line (fun _ => []) (get : EStateM Fault σ σ) where
  ok := by
    intro s x s' h
    obtain ⟨rfl, rfl⟩ := get_eq_ok_iff.mp h
    rfl
  error := by
    intro s f s' h
    cases h

/-- A sequence records the names of its parts one after the other. -/
theorem Records.bind {m : EStateM Fault σ α} {f : α → EStateM Fault σ β}
    {first : σ → List String} {second : α → σ → List String}
    (hm : Records symbols line first m) (hf : ∀ x, Records symbols line (second x) (f x))
    (hnames : ∀ {s x s'}, m s = .ok x s' → names s = first s ++ second x s')
    (hfirst : ∀ s, first s <+: names s) : Records symbols line names (m >>= f) where
  ok := by
    intro s y s' h
    obtain ⟨x, s₁, hx, hy⟩ := bind_eq_ok_iff.mp h
    rw [(hf x).ok hy, hm.ok hx, hnames hx, SymbolTable.addReferences_append]
  error := by
    intro s e s' h
    cases hx : m s with
    | error e' s₁ =>
      rw [bind_of_error hx] at h
      cases h
      obtain ⟨he, uses, huses, hsymbols⟩ := hm.error hx
      exact ⟨he, uses, huses.trans (hfirst s), hsymbols⟩
    | ok x s₁ =>
      rw [bind_of_ok hx] at h
      obtain ⟨he, uses, huses, hsymbols⟩ := (hf x).error h
      refine ⟨he, first s ++ uses, ?_, ?_⟩
      · rw [hnames hx]
        exact (List.prefix_append_right_inj _).mpr huses
      · rw [hsymbols, hm.ok hx, SymbolTable.addReferences_append]

/-- What follows records nothing. -/
theorem Records.bind_quiet {m : EStateM Fault σ α} {f : α → EStateM Fault σ β}
    (hm : Records symbols line names m) (hf : ∀ x, Records symbols line (fun _ => []) (f x)) :
    Records symbols line names (m >>= f) :=
  hm.bind hf (fun _ => (List.append_nil _).symm) fun _ => List.prefix_rfl

end Records

/-! ## Expressions -/

namespace Expr

/-- The faults at the malformed places of a tree. -/
def faults : Expr → List Fault
  | literal _ => []
  | here => []
  | name _ => []
  | unary _ e => e.faults
  | binary _ l r => l.faults ++ r.faults
  | fault f => [f]
  | followed e f => e.faults ++ [f]

/-- The malformed places are about the text, and not about a label. -/
def Textual (e : Expr) : Prop := ∀ f ∈ e.faults, f.isRedefinition = false

theorem Textual.followed {e : Expr} (h : e.Textual) {f : Fault}
    (hf : f.isRedefinition = false) : (Expr.followed e f).Textual := by
  intro g hg
  rcases List.mem_append.mp hg with hg | hg
  · exact h g hg
  · obtain rfl := List.mem_singleton.mp hg
    exact hf

theorem Textual.binary {l r : Expr} (hl : l.Textual) (hr : r.Textual) (op : BinaryOp) :
    (Expr.binary op l r).Textual := by
  intro g hg
  rcases List.mem_append.mp hg with hg | hg
  · exact hl g hg
  · exact hr g hg

theorem textual_fault {f : Fault} (hf : f.isRedefinition = false) :
    (Expr.fault f).Textual := by
  intro g hg
  obtain rfl := List.mem_singleton.mp hg
  exact hf

theorem textual_chain (tier : Tier) {item : List UInt8 → Expr × List UInt8}
    (hitem : ∀ text, (item text).1.Textual) (bound : Nat) {l : Expr} (hl : l.Textual)
    (text : List UInt8) : (chain tier item bound l text).1.Textual := by
  induction bound generalizing l text with
  | zero => exact hl.followed rfl
  | succ bound ih =>
    rw [chain]
    split
    · exact hl
    · exact ih (hl.binary (hitem _) _) _

theorem textual_level (tier : Tier) {item : List UInt8 → Expr × List UInt8}
    (hitem : ∀ text, (item text).1.Textual) (bound : Nat) (text : List UInt8) :
    (level tier item bound text).1.Textual :=
  textual_chain tier hitem bound (hitem text) _

theorem textual_tiers {item : List UInt8 → Expr × List UInt8}
    (hitem : ∀ text, (item text).1.Textual) (bound : Nat) (text : List UInt8) :
    (tiers item bound text).1.Textual :=
  textual_level .bits (textual_level .sums (textual_level .products hitem bound) bound)
    bound text

theorem textual_closing {e : Expr} (he : e.Textual) (text : List UInt8) :
    (closing e text).1.Textual := by
  unfold closing
  split
  · split
    · exact he
    · exact he.followed rfl
  · exact he.followed rfl

theorem textual_leaf (b : UInt8) (rest : List UInt8) : (leaf b rest).1.Textual := by
  have hsound : ∀ {e : Expr}, e.faults = [] → e.Textual := by
    intro e he f hf
    rw [he] at hf
    cases hf
  unfold leaf
  split
  · split
    · split
      · exact hsound rfl
      · exact hsound rfl
    · exact hsound rfl
  split
  · split
    · split
      · exact hsound rfl
      · exact hsound rfl
    · exact hsound rfl
  split
  · exact hsound rfl
  split
  · -- An octal number ends in a fault at the digits 8 and 9.
    unfold octal
    dsimp only
    split
    · split
      · exact textual_fault rfl
      · exact hsound rfl
    · exact hsound rfl
  split
  · exact hsound rfl
  split
  · exact hsound rfl
  · exact textual_fault rfl

theorem textual_operand (bound : Nat) (text : List UInt8) :
    (operand bound text).1.Textual := by
  induction bound generalizing text with
  | zero => exact textual_fault rfl
  | succ bound ih =>
    rw [operand]
    split
    · exact textual_fault rfl
    · rename_i b rest _
      split
      · exact ih _
      split
      · exact ih _
      split
      · show (closing (tiers (operand bound) (bound + 1) rest).1
          (tiers (operand bound) (bound + 1) rest).2).1.Textual
        exact textual_closing (textual_tiers ih _ _) _
      · exact textual_leaf _ _

theorem textual_parse (text : List UInt8) : (parse text).Textual := by
  have hread : (read text).1.Textual := textual_tiers (textual_operand _) _ _
  unfold parse
  dsimp only
  split
  · exact hread
  · exact hread.followed rfl

end Expr

theorem BinaryOp.apply_error {op : BinaryOp} {x y : Quad} {f : Fault}
    (h : op.apply x y = .error f) : f = .divisionByZero := by
  unfold apply at h
  split at h
  case h_10 =>
    split at h
    · exact (Except.error.inj h).symm
    · cases h
  case h_11 =>
    split at h
    · exact (Except.error.inj h).symm
    · cases h
  all_goals cases h

theorem Context.records_resolve (ctx : Context) (name : String) :
    Records id ctx.line (fun _ => Expr.symbols ctx.scope (.name name)) (ctx.resolve name) := by
  unfold resolve Expr.symbols
  cases hfind : Keyword.find? name with
  | none =>
    refine ⟨?_, ?_⟩
    · intro t x t' h
      obtain ⟨-, rfl⟩ := EStateM.Result.ok.inj h
      rfl
    · intro t f t' h
      cases h
  | some keyword =>
    cases keyword with
    | register r => exact records_pure _
    | modcz code => exact records_pure _
    | _ => exact records_throw rfl

/-- Evaluation records the symbols of a tree. -/
theorem Expr.records_eval (ctx : Context) {e : Expr} (he : e.Textual) :
    Records id ctx.line (fun _ => e.symbols ctx.scope) (e.eval ctx) := by
  induction e with
  | literal value => exact records_pure _
  | here => exact records_pure _
  | name text => exact ctx.records_resolve text
  | unary op e ih => exact (ih he).bind_quiet fun _ => records_pure _
  | binary op l r ihl ihr =>
    have hl := ihl fun f hf => he f (List.mem_append_left _ hf)
    have hr := ihr fun f hf => he f (List.mem_append_right _ hf)
    refine hl.bind (fun x => hr.bind_quiet fun y => ?_) (fun _ => rfl) fun _ =>
      List.prefix_append _ _
    cases happly : op.apply x y with
    | ok z => exact records_pure z
    | error f =>
      obtain rfl := BinaryOp.apply_error happly
      exact records_throw rfl
  | fault f => exact records_throw (he f (List.mem_singleton.mpr rfl))
  | followed e f ih =>
    refine (ih fun g hg => he g (List.mem_append_left _ hg)).bind_quiet fun _ => ?_
    exact records_throw (he f (List.mem_append_right _ (List.mem_singleton.mpr rfl)))

/-- The names that an operand text uses, from left to right. -/
def Operand.names (scope text : String) : List String :=
  (parse text).2.symbols scope

theorem Operand.records_evaluate (ctx : Context) (text : String) :
    Records id ctx.line (fun _ => names ctx.scope text) (evaluate ctx text) := by
  have htextual : (parse text).2.Textual := by
    unfold parse
    dsimp only
    split
    · exact Expr.textual_fault rfl
    · exact Expr.textual_parse _
  exact (Expr.records_eval ctx htextual).bind_quiet fun _ => records_pure _

end PropellerAsm
