import Mathlib.Data.List.Basic
import Mathlib.Data.Set.Basic
import Mathlib.Tactic.Common

/-! Words over an alphabet, compared letter by letter from the front. -/
namespace Paths

variable {α : Type*}

/-- Two words clash when one of them begins with the other. -/
def Clash (xs ys : List α) : Prop := xs <+: ys ∨ ys <+: xs

theorem Clash.symm {xs ys : List α} (h : Clash xs ys) : Clash ys xs := Or.symm h

@[simp] theorem clash_append_left (ps xs ys : List α) :
    Clash (ps ++ xs) (ps ++ ys) ↔ Clash xs ys := by
  simp [Clash]

@[simp] theorem clash_cons (a : α) (xs ys : List α) : Clash (a :: xs) (a :: ys) ↔ Clash xs ys := by
  simp [Clash]

theorem clash_nil_left (xs : List α) : Clash [] xs := Or.inl List.nil_prefix

theorem not_clash_cons_of_ne {a b : α} (h : a ≠ b) (xs ys : List α) :
    ¬ Clash (a :: xs) (b :: ys) := by
  simp [Clash, h, Ne.symm h]

theorem Clash.eq_of_length {xs ys : List α} (h : Clash xs ys) (hl : xs.length = ys.length) :
    xs = ys := by
  rcases h with h | h
  · exact h.eq_of_length hl
  · exact (h.eq_of_length hl.symm).symm

/-- What begins two words that part after `ns` begins `ns`. -/
theorem common_of_apart {qs ns s t : List α} {i j : α} (hne : i ≠ j) (hi : qs <+: ns ++ i :: s)
    (hj : qs <+: ns ++ j :: t) : qs <+: ns := by
  induction ns generalizing qs with
  | nil =>
      cases qs with
      | nil => exact List.nil_prefix
      | cons q qs =>
          simp only [List.nil_append, List.cons_prefix_cons] at hi hj
          exact absurd (hi.1.symm.trans hj.1) hne
  | cons n ns ih =>
      cases qs with
      | nil => exact List.nil_prefix
      | cons q qs =>
          simp only [List.cons_append, List.cons_prefix_cons] at hi hj ⊢
          exact ⟨hi.1, ih hi.2 hj.2⟩

/-- No word of the set begins another word of the set. -/
def PrefixFree (S : Set (List α)) : Prop := ∀ a ∈ S, ∀ b ∈ S, a <+: b → a = b

theorem PrefixFree.eq_of_clash {S : Set (List α)} (h : PrefixFree S) {a b : List α}
    (ha : a ∈ S) (hb : b ∈ S) (hc : Clash a b) : a = b := by
  rcases hc with hc | hc
  · exact h a ha b hb hc
  · exact (h b hb a ha hc).symm

/-- How a word lies to another one: below it, strictly above it, or apart from it
after a common part. -/
inductive Fork : List α → List α → Prop
  | below (xs t : List α) : Fork xs (xs ++ t)
  | above (ys : List α) (a : α) (t : List α) : Fork (ys ++ a :: t) ys
  | apart (c : List α) (a b : α) (s t : List α) : a ≠ b → Fork (c ++ a :: s) (c ++ b :: t)

theorem Fork.cons {xs ys : List α} (x : α) (h : Fork xs ys) : Fork (x :: xs) (x :: ys) := by
  cases h with
  | below xs t => exact .below (x :: xs) t
  | above ys a t => exact .above (x :: ys) a t
  | apart c a b s t hne => exact .apart (x :: c) a b s t hne

theorem fork (xs ys : List α) : Fork xs ys := by
  induction xs generalizing ys with
  | nil => exact .below [] ys
  | cons x xs ih =>
      cases ys with
      | nil => exact .above [] x xs
      | cons y ys =>
          by_cases h : x = y
          · subst h
            exact (ih ys).cons x
          · exact .apart [] x y xs ys h

variable [DecidableEq α]

/-- The length of the longest common beginning. -/
def lcp : List α → List α → Nat
  | a :: as, b :: bs => if a = b then lcp as bs + 1 else 0
  | _, _ => 0

@[simp] theorem lcp_append_right (xs t : List α) : lcp xs (xs ++ t) = xs.length := by
  induction xs with
  | nil => cases t <;> rfl
  | cons x xs ih => simp [lcp, ih]

@[simp] theorem lcp_append_left (ys t : List α) : lcp (ys ++ t) ys = ys.length := by
  induction ys with
  | nil => cases t <;> rfl
  | cons y ys ih => simp [lcp, ih]

theorem lcp_apart (c : List α) {a b : α} (h : a ≠ b) (s t : List α) :
    lcp (c ++ a :: s) (c ++ b :: t) = c.length := by
  induction c with
  | nil => simp [lcp, h]
  | cons x c ih => simp [lcp, ih]

@[simp] theorem isPrefixOf?_append (xs t : List α) : xs.isPrefixOf? (xs ++ t) = some t :=
  List.isPrefixOf?_eq_some_iff_append_eq.mpr rfl

@[simp] theorem isPrefixOf?_self (xs : List α) : xs.isPrefixOf? xs = some [] := by simp

theorem isPrefixOf?_eq_none {xs ys : List α} (h : ¬ xs <+: ys) : xs.isPrefixOf? ys = none := by
  rw [Option.eq_none_iff_forall_ne_some]
  intro t ht
  exact h ⟨t, List.isPrefixOf?_eq_some_iff_append_eq.mp ht⟩

end Paths
