import Mathlib.Logic.Function.Basic
import Mathlib.Tactic.Common

/-! A function behind a table that remembers its values. The table may be keyed more coarsely
than the function's arguments; what is found there is fitted to the argument it is found for. -/
namespace Memo

abbrev Table (Key Stored : Type*) := Key → Option Stored

/-- A function that may fail, and how its values are kept in a table. -/
structure Scheme (Arg Key Val Stored : Type*) where
  compute : Arg → Option Val
  key : Arg → Option Key
  store : Val → Stored
  load : Stored → Option Val
  fit : Arg → Val → Val
  eq_of_load : ∀ {v w}, load (store v) = some w → w = v

namespace Scheme
variable {Arg Key Val Stored : Type*} [DecidableEq Key] (m : Scheme Arg Key Val Stored)

/-- What the table has for an argument. -/
def found (table : Table Key Stored) (arg : Arg) : Option Val := ((m.key arg).bind table).bind m.load

def remember (table : Table Key Stored) (arg : Arg) (v : Val) : Table Key Stored :=
  match m.key arg with
  | some k => Function.update table k (some (m.store v))
  | none => table

/-- A call: what is found, fitted, or else the value of the function, which is remembered. -/
def call (table : Table Key Stored) (arg : Arg) : Option Val × Table Key Stored :=
  match m.found table arg with
  | some v => (some (m.fit arg v), table)
  | none =>
      match m.compute arg with
      | some v => (some v, m.remember table arg v)
      | none => (none, table)

/-- The table after some calls, from an empty one. -/
def after (args : List Arg) : Table Key Stored := args.foldl (fun table arg => (m.call table arg).2) fun _ => none

/-- Every entry is the value at some argument with its key. -/
def Sound (table : Table Key Stored) : Prop :=
  ∀ k s, table k = some s → ∃ arg v, m.key arg = some k ∧ m.compute arg = some v ∧ m.store v = s

/-- Whatever a call returns is the value of the function. -/
def Correct (table : Table Key Stored) (arg : Arg) : Prop := ∀ v, (m.call table arg).1 = some v → m.compute arg = some v

variable {m} {table : Table Key Stored} {arg : Arg}

theorem Sound.remember (h : m.Sound table) {v : Val} (hv : m.compute arg = some v) :
    m.Sound (m.remember table arg v) := by
  intro k s hs
  rw [Scheme.remember] at hs
  cases hkey : m.key arg with
  | none =>
      rw [hkey] at hs
      exact h k s hs
  | some j =>
      simp only [hkey] at hs
      by_cases hk : k = j
      · rw [hk, Function.update_self, Option.some.injEq] at hs
        exact ⟨arg, v, hk ▸ hkey, hv, hs⟩
      · rw [Function.update_of_ne hk] at hs
        exact h k s hs

theorem Sound.call (h : m.Sound table) (arg : Arg) : m.Sound (m.call table arg).2 := by
  rw [Scheme.call]
  split
  · exact h
  · split
    · next v hv => exact h.remember hv
    · exact h

theorem sound_after (args : List Arg) : m.Sound (m.after args) := by
  have hfold (table : Table Key Stored) (h : m.Sound table) :
      m.Sound (args.foldl (fun table arg => (m.call table arg).2) table) := by
    induction args generalizing table with
    | nil => exact h
    | cons arg args ih => exact ih _ (h.call arg)
  exact hfold _ fun k s hs => nomatch hs

omit [DecidableEq Key] in
/-- What is found is the value at an argument with the same key. -/
theorem Sound.found (h : m.Sound table) {v : Val} (hv : m.found table arg = some v) :
    ∃ other, m.key other = m.key arg ∧ m.compute other = some v := by
  obtain ⟨s, hs, hload⟩ := Option.bind_eq_some_iff.mp hv
  obtain ⟨k, hk, hentry⟩ := Option.bind_eq_some_iff.mp hs
  obtain ⟨other, w, hkey, hw, hstore⟩ := h k s hentry
  rw [← hstore] at hload
  exact ⟨other, hkey.trans hk.symm, m.eq_of_load hload ▸ hw⟩

/-- A call is correct exactly when what is found, if anything, is fitted to the value of the function. -/
theorem correct_iff : m.Correct table arg ↔ ∀ v, m.found table arg = some v → m.compute arg = some (m.fit arg v) := by
  rw [Correct, Scheme.call]
  cases hfound : m.found table arg with
  | some v =>
      constructor
      · intro h w hw
        rw [← Option.some.inj hw]
        exact h _ rfl
      · intro h w hw
        rw [← Option.some.inj hw]
        exact h v rfl
  | none =>
      refine iff_of_true ?_ fun v hv => nomatch hv
      intro v hv
      cases hcompute : m.compute arg with
      | none =>
          rw [hcompute] at hv
          cases hv
      | some w =>
          rw [hcompute] at hv
          exact hv

end Scheme

end Memo
