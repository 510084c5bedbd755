import Mathlib.Tactic.Common

/-! Commands that change a state and may fail, with conditions on what they leave. One condition holds
wherever a command stops, also where it fails; another holds where it returns. Two commands are alike
from two states where they end in the same way. -/
namespace Commands

variable {ε σ τ α β : Type}

/-- From a state a command ends in states with the first condition, and returns with the second. -/
def Ensures (x : EStateM ε σ α) (s : σ) (I : σ → Prop) (Q : α → σ → Prop) : Prop :=
  match x s with
  | .ok a s' => I s' ∧ Q a s'
  | .error _ s' => I s'

/-- From two states two commands return the same, or fail with the same error, and leave related states. -/
def Alike (x : EStateM ε σ α) (s : σ) (y : EStateM ε τ α) (t : τ) (R : σ → τ → Prop) : Prop :=
  match x s, y t with
  | .ok a s', .ok b t' => a = b ∧ R s' t'
  | .error e s', .error e' t' => e = e' ∧ R s' t'
  | .ok _ _, .error _ _ => False
  | .error _ _, .ok _ _ => False

/-- The state that a command leaves. -/
def leaves (x : EStateM ε σ α) (s : σ) : σ :=
  match x s with
  | .ok _ s' => s'
  | .error _ s' => s'

/-- The state after a sequence of commands, each of them also after one that has failed. -/
def leavesAll (xs : List (EStateM ε σ α)) (s : σ) : σ := xs.foldl (fun s x => leaves x s) s

variable {x : EStateM ε σ α} {f : α → EStateM ε σ β} {s s' : σ} {a : α} {I I' : σ → Prop}
  {Q Q' : α → σ → Prop} {after : β → σ → Prop}

theorem ensures_pure (h : I s) (hr : Q a s) : Ensures (pure a : EStateM ε σ α) s I Q := ⟨h, hr⟩

theorem ensures_throw {e : ε} (h : I s) : Ensures (throw e : EStateM ε σ α) s I Q := h

theorem ensures_modify {g : σ → σ} (h : I (g s)) :
    Ensures (modify g : EStateM ε σ PUnit) s I fun _ s' => s' = g s := ⟨h, rfl⟩

theorem ensures_get (h : I s) : Ensures (get : EStateM ε σ σ) s I fun got s' => got = s ∧ s' = s := ⟨h, rfl, rfl⟩

theorem Ensures.bind (hx : Ensures x s I Q)
    (hf : ∀ a s', I s' → Q a s' → Ensures (f a) s' I after) : Ensures (x >>= f) s I after := by
  unfold Ensures at hx
  change match (match x s with | .ok a s' => f a s' | .error e s' => .error e s') with
    | .ok b s' => I s' ∧ after b s'
    | .error _ s' => I s'
  cases hxs : x s with
  | ok a s' =>
      rw [hxs] at hx
      exact hf a s' hx.1 hx.2
  | error e s' =>
      rw [hxs] at hx
      exact hx

theorem Ensures.mono (h : Ensures x s I Q) (ha : ∀ s', I s' → I' s')
    (hr : ∀ a s', I s' → Q a s' → Q' a s') : Ensures x s I' Q' := by
  unfold Ensures at h ⊢
  cases hxs : x s with
  | ok a s' =>
      rw [hxs] at h
      exact ⟨ha s' h.1, hr a s' h.1 h.2⟩
  | error e s' =>
      rw [hxs] at h
      exact ha s' h

theorem Ensures.and (h : Ensures x s I Q) (h' : Ensures x s I' Q') :
    Ensures x s (fun s' => I s' ∧ I' s') fun a s' => Q a s' ∧ Q' a s' := by
  unfold Ensures at h h' ⊢
  cases hxs : x s with
  | ok a s' =>
      rw [hxs] at h h'
      exact ⟨⟨h.1, h'.1⟩, h.2, h'.2⟩
  | error e s' =>
      rw [hxs] at h h'
      exact ⟨h, h'⟩

theorem Ensures.leaves (h : Ensures x s I Q) : I (leaves x s) := by
  unfold Ensures at h
  unfold Commands.leaves
  cases hxs : x s with
  | ok a s' =>
      rw [hxs] at h
      exact h.1
  | error e s' =>
      rw [hxs] at h
      exact h

theorem Ensures.of_ok (h : Ensures x s I Q) (hx : x s = .ok a s') : I s' ∧ Q a s' := by
  unfold Ensures at h
  rw [hx] at h
  exact h

/-- What every command keeps, failing or not, a sequence of them keeps. -/
theorem leavesAll_keeps {I : σ → Prop} {xs : List (EStateM ε σ α)}
    (h : ∀ x ∈ xs, ∀ s, I s → Ensures x s I fun _ _ => True) (hs : I s) : I (leavesAll xs s) := by
  induction xs generalizing s with
  | nil => exact hs
  | cons x xs ih =>
      obtain ⟨hx, hxs⟩ := List.forall_mem_cons.mp h
      exact ih hxs (hx s hs).leaves

section Alike
variable {y : EStateM ε τ α} {g : α → EStateM ε τ β} {t : τ} {R R' : σ → τ → Prop}

theorem alike_pure (h : R s t) : Alike (pure a : EStateM ε σ α) s (pure a) t R := ⟨rfl, h⟩

theorem alike_throw {e : ε} (h : R s t) : Alike (throw e : EStateM ε σ α) s (throw e) t R := ⟨rfl, h⟩

theorem alike_modify {u : σ → σ} {v : τ → τ} (h : R (u s) (v t)) :
    Alike (modify u : EStateM ε σ PUnit) s (modify v) t R := ⟨rfl, h⟩

theorem Alike.bind (hx : Alike x s y t R) (hR : ∀ s' t', R s' t' → R' s' t')
    (hf : ∀ a s' t', R s' t' → Alike (f a) s' (g a) t' R') : Alike (x >>= f) s (y >>= g) t R' := by
  unfold Alike at hx
  change match (match x s with | .ok a s' => f a s' | .error e s' => .error e s'),
      (match y t with | .ok a t' => g a t' | .error e t' => .error e t') with
    | .ok b s', .ok b' t' => b = b' ∧ R' s' t'
    | .error e s', .error e' t' => e = e' ∧ R' s' t'
    | .ok _ _, .error _ _ => False
    | .error _ _, .ok _ _ => False
  cases hxs : x s with
  | ok a s' =>
      cases hyt : y t with
      | ok b t' =>
          rw [hxs, hyt] at hx
          obtain ⟨rfl, hst⟩ := hx
          exact hf a s' t' hst
      | error e' t' =>
          rw [hxs, hyt] at hx
          exact hx.elim
  | error e s' =>
      cases hyt : y t with
      | ok b t' =>
          rw [hxs, hyt] at hx
          exact hx.elim
      | error e' t' =>
          rw [hxs, hyt] at hx
          exact ⟨hx.1, hR s' t' hx.2⟩

end Alike

end Commands
