import Mathlib.Tactic.Common

/-! Runs of partial steps over a list. What every step keeps a run keeps; and where a condition on
every turn lets a second run follow the first, it follows the whole of it. -/
namespace Lockstep

variable {σ τ α : Type*}

/-- In the runs from both states a condition holds before every turn, as far as both go. -/
def Along (step : σ → α → Option σ) (step' : τ → α → Option τ) (cond : σ → τ → α → Prop) :
    σ → τ → List α → Prop
  | _, _, [] => True
  | s, t, a :: l => cond s t a ∧
      ∀ s' t', step s a = some s' → step' t a = some t' → Along step step' cond s' t' l

/-- The second step follows the first, under the condition, and the states stay related. -/
def Follows (step : σ → α → Option σ) (step' : τ → α → Option τ) (cond : σ → τ → α → Prop)
    (R : σ → τ → Prop) : Prop :=
  ∀ s t a s', R s t → cond s t a → step s a = some s' → ∃ t', step' t a = some t' ∧ R s' t'

variable {step : σ → α → Option σ} {step' : τ → α → Option τ} {cond : σ → τ → α → Prop} {R : σ → τ → Prop}

/-- What every step keeps a run keeps, together with the number of the turns of one kind. -/
theorem keeps {I : ℕ → σ → Prop} {kind : α → Bool}
    (h : ∀ n s a s', I n s → step s a = some s' → I (n + if kind a then 1 else 0) s') {l : List α} {n : ℕ} {s s' : σ}
    (hs : I n s) (hrun : l.foldlM step s = some s') : I (n + l.countP kind) s' := by
  induction l generalizing n s with
  | nil =>
      cases hrun
      exact hs
  | cons a l ih =>
      rw [List.foldlM_cons] at hrun
      obtain ⟨t, ht, hrun⟩ := Option.bind_eq_some_iff.mp hrun
      have hrest := ih (h n s a t hs ht) hrun
      rwa [Nat.add_assoc, Nat.add_comm (if kind a then 1 else 0), ← List.countP_cons] at hrest

theorem Follows.foldlM (h : Follows step step' cond R) {l : List α} {s s' : σ} {t : τ} (hst : R s t)
    (hl : Along step step' cond s t l) (hs : l.foldlM step s = some s') :
    ∃ t', l.foldlM step' t = some t' ∧ R s' t' := by
  induction l generalizing s t with
  | nil =>
      cases hs
      exact ⟨t, rfl, hst⟩
  | cons a l ih =>
      rw [List.foldlM_cons] at hs
      obtain ⟨s₁, hs₁, hs⟩ := Option.bind_eq_some_iff.mp hs
      obtain ⟨hcond, hrest⟩ := hl
      obtain ⟨t₁, ht₁, hst₁⟩ := h s t a s₁ hst hcond hs₁
      obtain ⟨t', ht', hst'⟩ := ih hst₁ (hrest s₁ t₁ hs₁ ht₁) hs
      refine ⟨t', ?_, hst'⟩
      rw [List.foldlM_cons, ht₁]
      exact ht'

end Lockstep
