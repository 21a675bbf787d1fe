import PropellerAsm.Proofs.Computation
import PropellerAsm.Proofs.Expr.Phrases

/-!
# The value of an operand

Evaluation against `Expr.meaning?`: a tree has a value if and only if it has a meaning, the value is
the meaning, and the symbols of the tree are recorded as used from left to right.  Together with the
readers of sigils and expressions this settles which operand texts have a value, and which one.
-/
namespace PropellerAsm

/-! ## Operators -/

theorem UnaryOp.apply_toNat (op : UnaryOp) (x : Quad) :
    (op.apply x).toNat = op.meaning x.toNat := by
  cases op with
  | negate =>
    show (-x).toNat = (2 ^ 64 - x.toNat) % 2 ^ 64
    rw [BitVec.toNat_neg]
  | complement =>
    show (~~~x).toNat = 2 ^ 64 - 1 - x.toNat
    rw [BitVec.toNat_not]

theorem shiftLeft_toNat (x : Quad) (n : Nat) :
    (if n < 64 then x <<< n else 0).toNat = x.toNat * 2 ^ n % modulus := by
  unfold modulus
  by_cases h : n < 64
  · rw [if_pos h, BitVec.toNat_shiftLeft, Nat.shiftLeft_eq]
  · rw [if_neg h]
    -- The power of two is a multiple of the modulus.
    obtain ⟨k, rfl⟩ : ∃ k, n = 64 + k := ⟨n - 64, by omega⟩
    have hmul : x.toNat * 2 ^ (64 + k) = 2 ^ 64 * (x.toNat * 2 ^ k) := by
      rw [Nat.pow_add, ← Nat.mul_assoc, Nat.mul_comm x.toNat, Nat.mul_assoc]
    rw [hmul, Nat.mul_mod_right]
    rfl

theorem shiftRight_toNat (x : Quad) (n : Nat) :
    (if n < 64 then x >>> n else 0).toNat = x.toNat / 2 ^ n := by
  by_cases h : n < 64
  · rw [if_pos h, BitVec.toNat_ushiftRight, Nat.shiftRight_eq_div_pow]
  · rw [if_neg h]
    -- Everything is shifted out.
    have hlt : x.toNat < 2 ^ n :=
      Nat.lt_of_lt_of_le x.isLt (Nat.pow_le_pow_right (by decide) (by omega))
    rw [Nat.div_eq_of_lt hlt]
    rfl

/-- An operator between operands has a value if and only if it has a meaning, and they are
equal. -/
theorem BinaryOp.meaning?_toNat (op : BinaryOp) (x y : Quad) :
    op.meaning? x.toNat y.toNat = (op.apply x y).toOption.map BitVec.toNat := by
  have hzero : y = 0 ↔ y.toNat = 0 := by
    rw [← BitVec.toNat_inj]
    rfl
  cases op with
  | without =>
    show some (x.toNat &&& (2 ^ 64 - 1 - y.toNat)) = some (x &&& ~~~y).toNat
    rw [BitVec.toNat_and, BitVec.toNat_not]
  | and => exact congrArg some (BitVec.toNat_and x y).symm
  | or => exact congrArg some (BitVec.toNat_or x y).symm
  | xor => exact congrArg some (BitVec.toNat_xor x y).symm
  | shiftLeft => exact congrArg some (shiftLeft_toNat x y.toNat).symm
  | shiftRight => exact congrArg some (shiftRight_toNat x y.toNat).symm
  | add => exact congrArg some (BitVec.toNat_add x y).symm
  | sub =>
    show some ((x.toNat + (2 ^ 64 - y.toNat)) % 2 ^ 64) = some (x - y).toNat
    rw [BitVec.toNat_sub, Nat.add_comm]
  | mul => exact congrArg some (BitVec.toNat_mul x y).symm
  | div =>
    rw [meaning?, apply]
    by_cases h : y = 0
    · rw [if_pos h, if_pos (hzero.mp h)]
      rfl
    · rw [if_neg h, if_neg (mt hzero.mpr h), ← BitVec.toNat_udiv]
      rfl
  | rem =>
    rw [meaning?, apply]
    by_cases h : y = 0
    · rw [if_pos h, if_pos (hzero.mp h)]
      rfl
    · rw [if_neg h, if_neg (mt hzero.mpr h), ← BitVec.toNat_umod]
      rfl

/-! ## Trees -/

/-- The recorded uses do not change what a name stands for. -/
theorem Context.meaning?_addReferences (ctx : Context) (t : SymbolTable) (line : Nat)
    (names : List String) (name : String) :
    ctx.meaning? (t.addReferences line names) name = ctx.meaning? t name := by
  unfold meaning?
  rw [SymbolTable.lookup_addReferences_value]

theorem Expr.meaning?_addReferences (ctx : Context) (t : SymbolTable) (line : Nat)
    (names : List String) (e : Expr) :
    e.meaning? ctx (t.addReferences line names) = e.meaning? ctx t := by
  induction e with
  | literal value => rfl
  | here => rfl
  | name text => exact ctx.meaning?_addReferences t line names text
  | unary op e ih => rw [meaning?, meaning?, ih]
  | binary op l r ihl ihr => rw [meaning?, meaning?, ihl, ihr]
  | fault f => rfl
  | followed e f => rfl

/-- A name has a value if and only if it has a meaning. -/
theorem Context.resolve_spec (ctx : Context) (name : String) (t : SymbolTable) :
    (∃ v, ctx.resolve name t =
        .ok v (t.addReferences ctx.line (Expr.symbols ctx.scope (.name name))) ∧
      ctx.meaning? t name = some v.toNat) ∨
    (∃ f t', ctx.resolve name t = .error f t' ∧ ctx.meaning? t name = none) := by
  unfold resolve meaning? Expr.symbols
  cases hfind : Keyword.find? name with
  | none =>
    -- The value is looked up after the use is recorded, which does not change it.
    left
    refine ⟨((t.addReference ctx.line (Symbol.qualify ctx.scope name)).lookup
      (Symbol.qualify ctx.scope name)).value.toQuad, rfl, ?_⟩
    rw [SymbolTable.lookup_addReference_value]
  | some keyword =>
    cases keyword with
    | register r =>
      left
      refine ⟨r.address.setWidth 64, rfl, ?_⟩
      rw [BitVec.toNat_setWidth_of_le (by decide)]
    | modcz code =>
      left
      refine ⟨code.setWidth 64, rfl, ?_⟩
      rw [BitVec.toNat_setWidth_of_le (by decide)]
    | _ =>
      -- Any other keyword stands for nothing.
      exact .inr ⟨_, _, rfl, rfl⟩

/-- A tree has a value if and only if it has a meaning. -/
theorem Expr.eval_spec (ctx : Context) (e : Expr) (t : SymbolTable) :
    (∃ v, e.eval ctx t = .ok v (t.addReferences ctx.line (e.symbols ctx.scope)) ∧
      e.meaning? ctx t = some v.toNat) ∨
    (∃ f t', e.eval ctx t = .error f t' ∧ e.meaning? ctx t = none) := by
  induction e generalizing t with
  | literal value => exact .inl ⟨value, rfl, rfl⟩
  | here =>
    refine .inl ⟨ctx.pc.setWidth 64, rfl, ?_⟩
    rw [meaning?, BitVec.toNat_setWidth_of_le (by decide)]
  | name text => exact ctx.resolve_spec text t
  | unary op e ih =>
    rw [eval, meaning?, symbols]
    obtain ⟨x, hx, hmx⟩ | ⟨f, t', hf, hmf⟩ := ih t
    · left
      refine ⟨op.apply x, ?_, ?_⟩
      · rw [bind_of_ok hx]
        rfl
      · rw [hmx, Option.map_some, op.apply_toNat]
    · right
      refine ⟨f, t', bind_of_error hf, ?_⟩
      rw [hmf, Option.map_none]
  | binary op l r ihl ihr =>
    rw [eval, meaning?, symbols]
    obtain ⟨x, hx, hmx⟩ | ⟨f, t', hf, hmf⟩ := ihl t
    swap
    · right
      refine ⟨f, t', bind_of_error hf, ?_⟩
      rw [hmf, Option.bind_none]
    rw [bind_of_ok hx, hmx, Option.bind_some]
    -- The right side is evaluated where the uses of the left side are already recorded.
    have hright := ihr (t.addReferences ctx.line (l.symbols ctx.scope))
    rw [meaning?_addReferences] at hright
    obtain ⟨y, hy, hmy⟩ | ⟨f, t', hf, hmf⟩ := hright
    swap
    · right
      refine ⟨f, t', bind_of_error hf, ?_⟩
      rw [hmf, Option.bind_none]
    rw [bind_of_ok hy, hmy, Option.bind_some, op.meaning?_toNat, SymbolTable.addReferences_append]
    cases op.apply x y with
    | ok z => exact .inl ⟨z, rfl, rfl⟩
    | error f => exact .inr ⟨f, _, rfl, rfl⟩
  | fault f => exact .inr ⟨f, t, rfl, rfl⟩
  | followed e f ih =>
    right
    rw [eval]
    obtain ⟨x, hx, -⟩ | ⟨f', t', hf, -⟩ := ih t
    · exact ⟨f, _, bind_of_ok hx, rfl⟩
    · exact ⟨f', t', bind_of_error hf, rfl⟩

theorem Expr.eval_eq_ok_iff (ctx : Context) (e : Expr) (t t' : SymbolTable) (v : Quad) :
    e.eval ctx t = .ok v t' ↔
      e.meaning? ctx t = some v.toNat ∧ t' = t.addReferences ctx.line (e.symbols ctx.scope) := by
  obtain ⟨x, hx, hmx⟩ | ⟨f, t₁, hf, hmf⟩ := e.eval_spec ctx t
  · rw [hx, hmx]
    simp only [EStateM.Result.ok.injEq, Option.some.injEq, BitVec.toNat_inj, eq_comm]
  · rw [hf, hmf]
    simp

/-- Only a tree without a fault has a meaning. -/
theorem Expr.wellFormed_of_meaning? {ctx : Context} {t : SymbolTable} {e : Expr} {n : Nat}
    (h : e.meaning? ctx t = some n) : e.wellFormed = true := by
  induction e generalizing n with
  | literal value => rfl
  | here => rfl
  | name text => rfl
  | unary op e ih =>
    rw [meaning?, Option.map_eq_some_iff] at h
    obtain ⟨x, hx, -⟩ := h
    exact ih hx
  | binary op l r ihl ihr =>
    rw [meaning?, Option.bind_eq_some_iff] at h
    obtain ⟨x, hx, h⟩ := h
    rw [Option.bind_eq_some_iff] at h
    obtain ⟨y, hy, -⟩ := h
    rw [wellFormed, ihl hx, ihr hy]
    rfl
  | fault f => cases h
  | followed e f => cases h

end PropellerAsm
