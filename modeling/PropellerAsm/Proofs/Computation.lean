import Mathlib.Order.Defs.Unbundled
import PropellerAsm.Fault

/-!
# Computations that may fault

Evaluation, encoding and assembly all run in a state that outlives a fault.  Two ways to reason
about such a run: what a successful one went through, by equations for each way to put computations
together, and what every run does to the state, by `Keeps`.
-/
namespace PropellerAsm

variable {σ α β : Type}

/-! ## Successful runs -/

theorem bind_of_ok {m : EStateM Fault σ α} {f : α → EStateM Fault σ β} {s s₁ : σ} {a : α}
    (h : m s = .ok a s₁) : (m >>= f) s = f a s₁ := by
  show EStateM.bind m f s = f a s₁
  rw [EStateM.bind, h]

theorem bind_of_error {m : EStateM Fault σ α} {f : α → EStateM Fault σ β} {s s₁ : σ} {e : Fault}
    (h : m s = .error e s₁) : (m >>= f) s = .error e s₁ := by
  show EStateM.bind m f s = .error e s₁
  rw [EStateM.bind, h]

/-- A sequence succeeds if its parts do. -/
theorem bind_eq_ok_iff {m : EStateM Fault σ α} {f : α → EStateM Fault σ β} {s s' : σ} {b : β} :
    (m >>= f) s = .ok b s' ↔ ∃ a s₁, m s = .ok a s₁ ∧ f a s₁ = .ok b s' := by
  cases hm : m s with
  | ok a s₁ =>
    rw [bind_of_ok hm]
    constructor
    · exact fun h => ⟨a, s₁, rfl, h⟩
    · rintro ⟨a', s₁', h, hf⟩
      obtain ⟨rfl, rfl⟩ := EStateM.Result.ok.inj h
      exact hf
  | error e s₁ =>
    rw [bind_of_error hm]
    simp

@[simp] theorem pure_eq_ok_iff {a b : α} {s s' : σ} :
    (pure a : EStateM Fault σ α) s = .ok b s' ↔ a = b ∧ s = s' := by
  show EStateM.Result.ok a s = .ok b s' ↔ _
  simp

@[simp] theorem throw_ne_ok {f : Fault} {b : α} {s s' : σ} :
    (throw f : EStateM Fault σ α) s ≠ .ok b s' := by
  intro h
  cases h

@[simp] theorem raiseIf_eq_ok_iff {c : Prop} [Decidable c] {f : Fault} {u : Unit} {s s' : σ} :
    (Fault.raiseIf c f : EStateM Fault σ Unit) s = .ok u s' ↔ ¬ c ∧ s = s' := by
  unfold Fault.raiseIf
  by_cases hc : c
  · rw [if_pos hc]
    simp [hc]
  · rw [if_neg hc]
    simp [hc]

@[simp] theorem modify_eq_ok_iff {f : σ → σ} {u : PUnit} {s s' : σ} :
    (modify f : EStateM Fault σ PUnit) s = .ok u s' ↔ f s = s' := by
  show EStateM.Result.ok PUnit.unit (f s) = .ok u s' ↔ _
  simp

@[simp] theorem get_eq_ok_iff {a s s' : σ} :
    (get : EStateM Fault σ σ) s = .ok a s' ↔ s = a ∧ s = s' := by
  show EStateM.Result.ok s s = .ok a s' ↔ _
  simp

/-- The result of a run, without the state that it ends in.  States have no decidable equality, so
it is this part that evaluation tells about a run on given arguments. -/
def value? : EStateM.Result Fault σ α → Option α
  | .ok a _ => some a
  | .error _ _ => none

theorem value?_eq_some_iff {run : EStateM.Result Fault σ α} {a : α} :
    value? run = some a ↔ ∃ s, run = .ok a s := by
  cases run with
  | ok a' s => simp [value?]
  | error f s => simp [value?]

/-! ## All runs -/

/-- The state that a run ends in, with a result or with a fault. -/
def endState : EStateM.Result Fault σ α → σ
  | .ok _ s => s
  | .error _ s => s

/-- Every run of `m` ends in a state that `R` relates to the one it started in. -/
def Keeps (R : σ → σ → Prop) (m : EStateM Fault σ α) : Prop :=
  ∀ s, R s (endState (m s))

section Keeps

variable {R : σ → σ → Prop}

theorem keeps_modify {f : σ → σ} (h : ∀ s, R s (f s)) :
    Keeps R (modify f : EStateM Fault σ PUnit) :=
  fun s => h s

theorem Keeps.of_ok {m : EStateM Fault σ α} (h : Keeps R m) {s s' : σ} {a : α}
    (hm : m s = .ok a s') : R s s' := by
  have hs := h s
  rwa [hm] at hs

theorem Keeps.of_error {m : EStateM Fault σ α} (h : Keeps R m) {s s' : σ} {f : Fault}
    (hm : m s = .error f s') : R s s' := by
  have hs := h s
  rwa [hm] at hs

variable [IsPreorder σ R]

theorem keeps_pure (a : α) : Keeps R (pure a : EStateM Fault σ α) :=
  fun s => refl_of R s

theorem keeps_throw (f : Fault) : Keeps R (throw f : EStateM Fault σ α) :=
  fun s => refl_of R s

theorem keeps_get : Keeps R (get : EStateM Fault σ σ) :=
  fun s => refl_of R s

theorem keeps_raiseIf (c : Prop) [Decidable c] (f : Fault) :
    Keeps R (Fault.raiseIf c f : EStateM Fault σ Unit) := by
  unfold Fault.raiseIf
  split
  · exact keeps_throw f
  · exact keeps_pure ()

/-- What both parts of a sequence do to the state, the sequence does. -/
theorem keeps_bind {m : EStateM Fault σ α} {f : α → EStateM Fault σ β} (hm : Keeps R m)
    (hf : ∀ a, Keeps R (f a)) : Keeps R (m >>= f) := by
  intro s
  cases h : m s with
  | ok a s₁ =>
    rw [bind_of_ok h]
    exact trans_of R (hm.of_ok h) (hf a s₁)
  | error e s₁ =>
    rw [bind_of_error h]
    exact hm.of_error h

end Keeps

end PropellerAsm
