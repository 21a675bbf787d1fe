import PropellerAsm.Proofs.Computation

/-!
# Two runs side by side

Two computations go in step if, from related states, both return related results in related states
again, or both stop at related faults.  Computations that are put together in the same way from
parts that go in step go in step themselves, so a statement about two runs of the assembler comes
down to the few places where they look at what may differ.
-/
namespace PropellerAsm

/-- What two runs have in common. -/
structure Comparison (σ τ : Type) where
  /-- The states while both runs go on. -/
  state : σ → τ → Prop
  /-- The states behind a fault. -/
  stopped : σ → τ → Prop
  /-- The faults that the runs stop at. -/
  fault : Fault → Fault → Prop
  stop {s : σ} {t : τ} (h : state s t) : stopped s t

variable {σ τ α β γ δ : Type} {C : Comparison σ τ} {P : α → β → Prop} {P' : γ → δ → Prop}

/-- Two runs end alike: with related results or with related faults. -/
inductive EndAlike (C : Comparison σ τ) (P : α → β → Prop) :
    EStateM.Result Fault σ α → EStateM.Result Fault τ β → Prop where
  | ok {a b s t} (result : P a b) (state : C.state s t) : EndAlike C P (.ok a s) (.ok b t)
  | error {f f' s t} (fault : C.fault f f') (stopped : C.stopped s t) :
      EndAlike C P (.error f s) (.error f' t)

/-- From related states, `m` and `n` end alike. -/
def Lockstep (C : Comparison σ τ) (P : α → β → Prop) (m : EStateM Fault σ α)
    (n : EStateM Fault τ β) : Prop :=
  ∀ s t, C.state s t → EndAlike C P (m s) (n t)

theorem Lockstep.imp {m : EStateM Fault σ α} {n : EStateM Fault τ β} (h : Lockstep C P m n)
    {P' : α → β → Prop} (himp : ∀ a b, P a b → P' a b) : Lockstep C P' m n := by
  intro s t hstate
  have hend := h s t hstate
  generalize m s = x at hend ⊢
  generalize n t = y at hend ⊢
  cases hend with
  | ok hresult hnext => exact .ok (himp _ _ hresult) hnext
  | error hfault hstopped => exact .error hfault hstopped

theorem lockstep_pure {a : α} {b : β} (h : P a b) : Lockstep C P (pure a) (pure b) :=
  fun _ _ hstate => .ok h hstate

theorem lockstep_throw {f f' : Fault} (h : C.fault f f') :
    Lockstep C P (throw f) (throw f') :=
  fun _ _ hstate => .error h (C.stop hstate)

theorem lockstep_get :
    Lockstep C C.state (get : EStateM Fault σ σ) (get : EStateM Fault τ τ) :=
  fun _ _ hstate => .ok hstate hstate

theorem lockstep_modify {f : σ → σ} {g : τ → τ} (h : ∀ s t, C.state s t → C.state (f s) (g t)) :
    Lockstep C Eq (modify f : EStateM Fault σ PUnit) (modify g : EStateM Fault τ PUnit) :=
  fun s t hstate => .ok rfl (h s t hstate)

theorem lockstep_ite {c c' : Prop} [Decidable c] [Decidable c'] (hc : c ↔ c')
    {m m' : EStateM Fault σ α} {n n' : EStateM Fault τ β} (hm : Lockstep C P m n)
    (hm' : Lockstep C P m' n') : Lockstep C P (if c then m else m') (if c' then n else n') := by
  by_cases h : c
  · rw [if_pos h, if_pos (hc.mp h)]
    exact hm
  · rw [if_neg h, if_neg (mt hc.mpr h)]
    exact hm'

theorem lockstep_raiseIf {c c' : Prop} [Decidable c] [Decidable c'] (hc : c ↔ c') {f f' : Fault}
    (h : C.fault f f') :
    Lockstep C Eq (Fault.raiseIf c f : EStateM Fault σ Unit) (Fault.raiseIf c' f') :=
  lockstep_ite hc (lockstep_throw h) (lockstep_pure rfl)

/-- Sequences of parts that go in step. -/
theorem Lockstep.bind {m : EStateM Fault σ α} {n : EStateM Fault τ β}
    {f : α → EStateM Fault σ γ} {g : β → EStateM Fault τ δ} (hm : Lockstep C P m n)
    (hf : ∀ a b, P a b → Lockstep C P' (f a) (g b)) : Lockstep C P' (m >>= f) (n >>= g) := by
  intro s t hstate
  have hfirst := hm s t hstate
  generalize hms : m s = x at hfirst
  generalize hnt : n t = y at hfirst
  cases hfirst with
  | ok hresult hnext =>
    rw [bind_of_ok hms, bind_of_ok hnt]
    exact hf _ _ hresult _ _ hnext
  | error hfault hstopped =>
    rw [bind_of_error hms, bind_of_error hnt]
    exact .error hfault hstopped

/-- Sequences whose first parts return the same result. -/
theorem Lockstep.bind_same {m : EStateM Fault σ α} {n : EStateM Fault τ α}
    {f : α → EStateM Fault σ γ} {g : α → EStateM Fault τ δ} (hm : Lockstep C Eq m n)
    (hf : ∀ a, Lockstep C P' (f a) (g a)) : Lockstep C P' (m >>= f) (n >>= g) := by
  refine hm.bind ?_
  rintro a _ rfl
  exact hf a

end PropellerAsm
