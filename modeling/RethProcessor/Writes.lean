import Mathlib.Data.List.Basic
import Mathlib.Data.List.Perm.Basic
import Mathlib.Logic.Function.Basic

/-! Functions overwritten at finitely many points, and runs of partial steps. Writes of
distinct points, and steps that commute, can be made in any order. -/
namespace Writes

section Overlay
variable {κ β : Type*} [DecidableEq κ]

/-- The function after the writes, one after the other. -/
def overlay (f : κ → β) (ws : List (κ × β)) : κ → β :=
  ws.foldl (fun g w => Function.update g w.1 w.2) f

@[simp] theorem overlay_cons (f : κ → β) (w : κ × β) (ws : List (κ × β)) :
    overlay f (w :: ws) = overlay (Function.update f w.1 w.2) ws := rfl

theorem overlay_of_not_mem {f : κ → β} {ws : List (κ × β)} {k : κ} (h : k ∉ ws.map Prod.fst) :
    overlay f ws k = f k := by
  induction ws generalizing f with
  | nil => rfl
  | cons w ws ih =>
      simp only [List.map_cons, List.mem_cons, not_or] at h
      rw [overlay_cons, ih h.2, Function.update_of_ne h.1]

theorem overlay_of_mem {f : κ → β} {ws : List (κ × β)} (hn : (ws.map Prod.fst).Nodup)
    {w : κ × β} (hw : w ∈ ws) : overlay f ws w.1 = w.2 := by
  induction ws generalizing f with
  | nil => cases hw
  | cons u ws ih =>
      simp only [List.map_cons, List.nodup_cons] at hn
      rw [overlay_cons]
      rcases List.mem_cons.mp hw with rfl | hw
      · rw [overlay_of_not_mem hn.1, Function.update_self]
      · exact ih hn.2 hw

/-- A point that is written holds what one of its writes put there. -/
theorem exists_write {f : κ → β} {ws : List (κ × β)} {k : κ} (h : k ∈ ws.map Prod.fst) :
    ∃ w ∈ ws, w.1 = k ∧ overlay f ws k = w.2 := by
  induction ws generalizing f with
  | nil => cases h
  | cons w ws ih =>
      rw [overlay_cons]
      by_cases hk : k ∈ ws.map Prod.fst
      · obtain ⟨u, hu, hku, heq⟩ := ih (f := Function.update f w.1 w.2) hk
        exact ⟨u, List.mem_cons_of_mem _ hu, hku, heq⟩
      · rw [List.map_cons, List.mem_cons] at h
        obtain rfl := h.resolve_right hk
        refine ⟨w, by simp, rfl, ?_⟩
        rw [overlay_of_not_mem hk, Function.update_self]

/-- Writes of distinct points can be made in any order. -/
theorem overlay_perm {f : κ → β} {ws us : List (κ × β)} (hn : (ws.map Prod.fst).Nodup)
    (h : ws.Perm us) : overlay f ws = overlay f us := by
  funext k
  have hn' : (us.map Prod.fst).Nodup := (h.map _).nodup_iff.mp hn
  by_cases hk : k ∈ ws.map Prod.fst
  · obtain ⟨w, hw, rfl⟩ := List.mem_map.mp hk
    rw [overlay_of_mem hn hw, overlay_of_mem hn' (h.mem_iff.mp hw)]
  · rw [overlay_of_not_mem hk, overlay_of_not_mem fun hk' => hk ((h.map _).mem_iff.mpr hk')]

end Overlay

section Steps
variable {σ α : Type*}

/-- Two steps in a row. -/
def twice (step : σ → α → Option σ) (s : σ) (a b : α) : Option σ := (step s a).bind fun t => step t b

/-- Steps that commute pairwise, wherever an invariant holds, lead to one state in any order. -/
theorem foldlM_perm {step : σ → α → Option σ} {I : σ → Prop} {R : α → α → Prop}
    (hR : ∀ {a b}, R a b → R b a) (hI : ∀ {s t a}, I s → step s a = some t → I t)
    (hcomm : ∀ {s a b}, I s → R a b → twice step s a b = twice step s b a) {l m : List α}
    (h : l.Perm m) (hl : l.Pairwise R) {s : σ} (hs : I s) : l.foldlM step s = m.foldlM step s := by
  induction h generalizing s with
  | nil => rfl
  | cons a _ ih =>
      rw [List.foldlM_cons, List.foldlM_cons]
      cases ha : step s a with
      | none => rfl
      | some t => exact ih hl.of_cons (hI hs ha)
  | swap a b l =>
      have hab : R b a := (List.pairwise_cons.mp hl).1 a (by simp)
      have h2 := hcomm hs hab
      simp only [List.foldlM_cons]
      have hfold (x y : α) : (do
          let t ← step s x
          let t ← step t y
          l.foldlM step t) = (twice step s x y).bind (l.foldlM step) := by
        cases hx : step s x <;> simp [twice, hx]
      rw [hfold, hfold, h2]
  | trans h₁ _ ih₁ ih₂ =>
      rw [ih₁ hl hs, ih₂ ((List.Perm.pairwise_iff hR h₁).mp hl) hs]

/-- Runs of steps that are the same, wherever an invariant holds, are the same. -/
theorem foldlM_congr {step step' : σ → α → Option σ} {I : σ → Prop}
    (hI : ∀ {s t a}, I s → step s a = some t → I t) {l : List α}
    (h : ∀ s, I s → ∀ a ∈ l, step s a = step' s a) {s : σ} (hs : I s) :
    l.foldlM step s = l.foldlM step' s := by
  induction l generalizing s with
  | nil => rfl
  | cons a l ih =>
      rw [List.foldlM_cons, List.foldlM_cons, ← h s hs a (by simp)]
      cases ha : step s a with
      | none => rfl
      | some t => exact ih (fun s hs b hb => h s hs b (List.mem_cons_of_mem _ hb)) (hI hs ha)

/-- In a run that goes through, steps that change nothing may be left out. -/
theorem foldlM_filter {step : σ → α → Option σ} {keep : α → Bool} {I : List α → σ → Prop}
    (hI : ∀ {s t a l}, I (a :: l) s → step s a = some t → I l t)
    (hdrop : ∀ {s t a l}, I (a :: l) s → keep a = false → step s a = some t → t = s) {l : List α} {s t : σ}
    (hs : I l s) (h : l.foldlM step s = some t) : (l.filter keep).foldlM step s = some t := by
  induction l generalizing s with
  | nil => exact h
  | cons a l ih =>
      rw [List.foldlM_cons] at h
      obtain ⟨s₁, ha, h⟩ := Option.bind_eq_some_iff.mp h
      have hrest := ih (hI hs ha) h
      cases hkeep : keep a with
      | true =>
          rw [List.filter_cons_of_pos hkeep, List.foldlM_cons, ha]
          exact hrest
      | false =>
          rw [List.filter_cons_of_neg (by rw [hkeep]; exact Bool.false_ne_true), ← hdrop hs hkeep ha]
          exact hrest

end Steps

end Writes
