import RethProcessor.Calls

/-! Calls that work through a list of steps. A step passes, or it is refused and the call comes to
an error, or it breaks the call, which then crashes or does not return. What becomes of the call
depends on the first step that does not pass. -/
namespace Calls

variable {ε α β σ ι τ : Type}

/-- With enough fuel the call comes to this result. -/
def Comes (call : Nat → Call ε α) (r : Except ε α) : Prop :=
  ∃ enough, ∀ fuel, enough ≤ fuel → (call fuel).run = some r

/-- No fuel is enough for the call. -/
def Diverges (call : Nat → Call ε α) : Prop := ∃ least, ∀ fuel, least ≤ fuel → (call fuel).run = none

/-- The call comes to a result, and to no error that is a crash. -/
def Settles (crash : ε → Prop) (call : Nat → Call ε α) : Prop :=
  ∃ r, Comes call r ∧ ∀ e, r = .error e → ¬ crash e

/-- How steps go wrong. -/
structure Faults (τ : Type) where
  refuses : τ → Prop
  breaks : τ → Prop

namespace Faults
variable (F : Faults τ)

def Passes (steps : List τ) : Prop := ∀ s ∈ steps, ¬ F.breaks s ∧ ¬ F.refuses s

/-- No step breaks before one is refused. -/
def Orderly : List τ → Prop
  | [] => True
  | s :: rest => ¬ F.breaks s ∧ (F.refuses s ∨ Orderly rest)

variable {F} {xs ys : List τ}

theorem passes_nil : F.Passes [] := by
  intro s hs
  cases hs

theorem passes_append : F.Passes (xs ++ ys) ↔ F.Passes xs ∧ F.Passes ys := List.forall_mem_append

theorem passes_singleton {s : τ} : F.Passes [s] ↔ ¬ F.breaks s ∧ ¬ F.refuses s := List.forall_mem_singleton

theorem Passes.orderly (h : F.Passes xs) : F.Orderly xs := by
  induction xs with
  | nil => trivial
  | cons s rest ih =>
      have hs := h s List.mem_cons_self
      exact ⟨hs.1, .inr (ih fun t ht => h t (List.mem_cons_of_mem _ ht))⟩

/-- Behind steps that all pass, the next ones count. -/
theorem Passes.orderly_append (h : F.Passes xs) : F.Orderly (xs ++ ys) ↔ F.Orderly ys := by
  induction xs with
  | nil => exact Iff.rfl
  | cons s rest ih =>
      have hs := h s List.mem_cons_self
      rw [List.cons_append, Orderly, and_iff_right hs.1, or_iff_right hs.2]
      exact ih fun t ht => h t (List.mem_cons_of_mem _ ht)

/-- Behind a step that does not pass, nothing counts. -/
theorem orderly_append_of_not_passes (h : ¬ F.Passes xs) : F.Orderly (xs ++ ys) ↔ F.Orderly xs := by
  induction xs with
  | nil => exact absurd passes_nil h
  | cons s rest ih =>
      rw [List.cons_append, Orderly, Orderly]
      by_cases hs : F.breaks s ∨ F.refuses s
      · rcases hs with hs | hs
        · exact iff_of_false (fun h => h.1 hs) fun h => h.1 hs
        · rw [or_iff_left_of_imp fun _ => hs, or_iff_left_of_imp fun _ => hs]
      · rw [not_or] at hs
        have hrest : ¬ F.Passes rest := by
          intro hrest
          apply h
          intro t ht
          rcases List.mem_cons.mp ht with rfl | ht
          · exact hs
          · exact hrest t ht
        rw [ih hrest]

end Faults

section Comes
variable {call : Nat → Call ε α}

theorem Comes.unique {r s : Except ε α} (hr : Comes call r) (hs : Comes call s) : r = s := by
  obtain ⟨n, hn⟩ := hr
  obtain ⟨m, hm⟩ := hs
  have h := (hn (max n m) (Nat.le_max_left n m)).symm.trans (hm (max n m) (Nat.le_max_right n m))
  exact Option.some.inj h

theorem Comes.not_diverges {r : Except ε α} (hr : Comes call r) : ¬ Diverges call := by
  intro h
  obtain ⟨n, hn⟩ := hr
  obtain ⟨m, hm⟩ := h
  cases (hm (max n m) (Nat.le_max_right n m)).symm.trans (hn (max n m) (Nat.le_max_left n m))

theorem comes_lift (r : Except ε α) : Comes (fun _ => (liftM r : Call ε α)) r := ⟨0, fun _ _ => rfl⟩

theorem comes_option {r : Nat → Option α} {a : α} (h : ∃ enough, ∀ fuel, enough ≤ fuel → r fuel = some a) :
    Comes (fun n => (liftM (r n) : Call ε α)) (.ok a) := by
  obtain ⟨enough, h⟩ := h
  refine ⟨enough, ?_⟩
  intro fuel hf
  simp only [h fuel hf]
  rfl

theorem diverges_option {r : Nat → Option α} (h : ∀ fuel, r fuel = none) :
    Diverges fun n => (liftM (r n) : Call ε α) := by
  refine ⟨0, ?_⟩
  intro fuel _
  simp only [h fuel]
  rfl

theorem Comes.bind_error {f : Nat → α → Call ε β} {e : ε} (h : Comes call (.error e)) :
    Comes (fun n => call n >>= f n) (.error e) := by
  obtain ⟨n, hn⟩ := h
  refine ⟨n, ?_⟩
  intro fuel hf
  rw [ExceptT.run_bind, hn fuel hf]
  rfl

/-- After a call that comes to a value, the next one decides. -/
theorem Comes.run_bind {f : Nat → α → Call ε β} {a : α} (h : Comes call (.ok a)) :
    ∃ enough, ∀ fuel, enough ≤ fuel → (call fuel >>= f fuel).run = (f fuel a).run := by
  obtain ⟨n, hn⟩ := h
  refine ⟨n, ?_⟩
  intro fuel hf
  rw [ExceptT.run_bind, hn fuel hf]
  rfl

theorem Comes.bind {f : Nat → α → Call ε β} {a : α} {r : Except ε β} (h : Comes call (.ok a))
    (hf : Comes (fun n => f n a) r) : Comes (fun n => call n >>= f n) r := by
  obtain ⟨n, hn⟩ := h.run_bind (f := f)
  obtain ⟨m, hm⟩ := hf
  refine ⟨max n m, ?_⟩
  intro fuel hfuel
  rw [hn fuel (Nat.le_trans (Nat.le_max_left n m) hfuel), hm fuel (Nat.le_trans (Nat.le_max_right n m) hfuel)]

theorem Comes.bind_diverges {f : Nat → α → Call ε β} {a : α} (h : Comes call (.ok a))
    (hf : Diverges fun n => f n a) : Diverges fun n => call n >>= f n := by
  obtain ⟨n, hn⟩ := h.run_bind (f := f)
  obtain ⟨m, hm⟩ := hf
  refine ⟨max n m, ?_⟩
  intro fuel hfuel
  rw [hn fuel (Nat.le_trans (Nat.le_max_left n m) hfuel), hm fuel (Nat.le_trans (Nat.le_max_right n m) hfuel)]

theorem Diverges.bind {f : Nat → α → Call ε β} (h : Diverges call) : Diverges fun n => call n >>= f n := by
  obtain ⟨n, hn⟩ := h
  refine ⟨n, ?_⟩
  intro fuel hf
  rw [ExceptT.run_bind, hn fuel hf]
  rfl

end Comes

section Runs
variable {F : Faults τ} {crash : ε → Prop} {xs ys : List τ} {call : Nat → Call ε α} {P : α → Prop}

/-- The call does the steps, with this of its value when they all pass. -/
inductive Runs (F : Faults τ) (crash : ε → Prop) (steps : List τ) (call : Nat → Call ε α)
    (P : α → Prop) : Prop
  | passed (a : α) : F.Passes steps → P a → Comes call (.ok a) → Runs F crash steps call P
  | refused (e : ε) : ¬ F.Passes steps → F.Orderly steps → ¬ crash e → Comes call (.error e) →
      Runs F crash steps call P
  | crashed (e : ε) : ¬ F.Orderly steps → crash e → Comes call (.error e) → Runs F crash steps call P
  | diverged : ¬ F.Orderly steps → Diverges call → Runs F crash steps call P

/-- A call settles exactly when no step breaks it. -/
theorem Runs.settles_iff (h : Runs F crash xs call P) : Settles crash call ↔ F.Orderly xs := by
  cases h with
  | passed a hpass _ hcall =>
      refine iff_of_true ⟨.ok a, hcall, ?_⟩ hpass.orderly
      intro e he
      cases he
  | refused e _ horderly hcrash hcall =>
      refine iff_of_true ⟨.error e, hcall, ?_⟩ horderly
      intro e' he
      exact Except.error.inj he ▸ hcrash
  | crashed e horderly hcrash hcall =>
      refine iff_of_false ?_ horderly
      rintro ⟨r, hr, hno⟩
      exact hno e (hr.unique hcall) hcrash
  | diverged horderly hcall =>
      refine iff_of_false ?_ horderly
      rintro ⟨r, hr, -⟩
      exact hr.not_diverges hcall

/-- A call comes to a value exactly when all its steps pass. -/
theorem Runs.value_iff (h : Runs F crash xs call P) : (∃ a, Comes call (.ok a)) ↔ F.Passes xs := by
  have herror {e : ε} (hcall : Comes call (.error e)) : ¬ ∃ a, Comes call (.ok a) := by
    rintro ⟨a, ha⟩
    cases ha.unique hcall
  cases h with
  | passed a hpass _ hcall => exact iff_of_true ⟨a, hcall⟩ hpass
  | refused e hpass _ _ hcall => exact iff_of_false (herror hcall) hpass
  | crashed e horderly _ hcall => exact iff_of_false (herror hcall) fun hpass => horderly hpass.orderly
  | diverged horderly hcall =>
      refine iff_of_false ?_ fun hpass => horderly hpass.orderly
      rintro ⟨a, ha⟩
      exact ha.not_diverges hcall

theorem Runs.value (h : Runs F crash xs call P) {a : α} (ha : Comes call (.ok a)) : P a := by
  cases h with
  | passed b _ hP hcall => exact Except.ok.inj (hcall.unique ha) ▸ hP
  | refused e _ _ _ hcall => cases hcall.unique ha
  | crashed e _ _ hcall => cases hcall.unique ha
  | diverged _ hcall => exact absurd hcall ha.not_diverges

theorem Runs.pure {a : α} (h : P a) : Runs F crash [] (fun _ => (Pure.pure a : Call ε α)) P :=
  .passed a Faults.passes_nil h ⟨0, fun _ _ => rfl⟩

theorem Runs.bind {Q : β → Prop} {f : Nat → α → Call ε β} (h : Runs F crash xs call P)
    (hf : ∀ a, P a → F.Passes xs → Runs F crash ys (fun n => f n a) Q) :
    Runs F crash (xs ++ ys) (fun n => call n >>= f n) Q := by
  cases h with
  | passed a hpass hP hcall =>
      cases hf a hP hpass with
      | passed b hpass' hQ hb => exact .passed b (Faults.passes_append.mpr ⟨hpass, hpass'⟩) hQ (hcall.bind hb)
      | refused e hpass' horderly hcrash hb =>
          exact .refused e (fun h => hpass' (Faults.passes_append.mp h).2) (hpass.orderly_append.mpr horderly)
            hcrash (hcall.bind hb)
      | crashed e horderly hcrash hb =>
          exact .crashed e (fun h => horderly (hpass.orderly_append.mp h)) hcrash (hcall.bind hb)
      | diverged horderly hb =>
          exact .diverged (fun h => horderly (hpass.orderly_append.mp h)) (hcall.bind_diverges hb)
  | refused e hpass horderly hcrash hcall =>
      exact .refused e (fun h => hpass (Faults.passes_append.mp h).1)
        ((Faults.orderly_append_of_not_passes hpass).mpr horderly) hcrash hcall.bind_error
  | crashed e horderly hcrash hcall =>
      have hpass : ¬ F.Passes xs := fun h => horderly h.orderly
      exact .crashed e (fun h => horderly ((Faults.orderly_append_of_not_passes hpass).mp h)) hcrash hcall.bind_error
  | diverged horderly hcall =>
      have hpass : ¬ F.Passes xs := fun h => horderly h.orderly
      exact .diverged (fun h => horderly ((Faults.orderly_append_of_not_passes hpass).mp h)) hcall.bind

/-- A loop does the steps of its turns, one turn after the other. -/
theorem Runs.foldlM {steps : ι → List τ} {step : Nat → σ → ι → Call ε σ} {I : List ι → σ → Prop}
    (hstep : ∀ done s a, I done s → Runs F crash (steps a) (fun n => step n s a) (I (done ++ [a])))
    {done : List ι} {s : σ} (hs : I done s) (todo : List ι) :
    Runs F crash (todo.flatMap steps) (fun n => todo.foldlM (step n) s) (I (done ++ todo)) := by
  induction todo generalizing done s with
  | nil =>
      rw [List.append_nil]
      exact .pure hs
  | cons a todo ih =>
      refine (hstep done s a hs).bind ?_
      intro t ht _
      have hrest := ih ht
      rwa [List.append_assoc] at hrest

theorem runs_ok {s : τ} {r : Except ε α} {a : α} (h : r = .ok a) (hs : ¬ F.breaks s ∧ ¬ F.refuses s) (hP : P a) :
    Runs F crash [s] (fun _ => (liftM r : Call ε α)) P := by
  subst h
  exact .passed a (Faults.passes_singleton.mpr hs) hP (comes_lift _)

theorem runs_refused {s : τ} {r : Except ε α} {e : ε} (h : r = .error e) (hs : ¬ F.breaks s ∧ F.refuses s)
    (hcrash : ¬ crash e) : Runs F crash [s] (fun _ => (liftM r : Call ε α)) P := by
  subst h
  refine .refused e ?_ ⟨hs.1, .inl hs.2⟩ hcrash (comes_lift _)
  intro hpass
  exact (Faults.passes_singleton.mp hpass).2 hs.2

theorem runs_crashed {s : τ} {r : Except ε α} {e : ε} (h : r = .error e) (hs : F.breaks s) (hcrash : crash e) :
    Runs F crash [s] (fun _ => (liftM r : Call ε α)) P := by
  subst h
  exact .crashed e (fun h => h.1 hs) hcrash (comes_lift _)

theorem lift_bind (r : Except ε α) (f : α → Except ε β) :
    (liftM (r >>= f) : Call ε β) = liftM r >>= fun a => liftM (f a) := by
  cases r with
  | error e => rfl
  | ok a => rfl

/-- So does a `mapM` over a list. -/
theorem Runs.mapM {steps : ι → List τ} {f : ι → Except ε α} {g : ι → α}
    (hf : ∀ a, Runs F crash (steps a) (fun _ => (liftM (f a) : Call ε α)) (· = g a)) (l : List ι) :
    Runs F crash (l.flatMap steps) (fun _ => (liftM (l.mapM f) : Call ε (List α))) (· = l.map g) := by
  induction l with
  | nil => exact .pure rfl
  | cons a l ih =>
      simp only [List.mapM_cons, lift_bind]
      refine (hf a).bind ?_
      rintro _ rfl _
      have hrest : Runs F crash (l.flatMap steps ++ []) (fun _ => (liftM (l.mapM f) >>= fun bs =>
          liftM (Pure.pure (g a :: bs) : Except ε (List α)) : Call ε (List α))) (· = g a :: l.map g) := by
        refine ih.bind ?_
        rintro _ rfl _
        exact .pure rfl
      rwa [List.append_nil] at hrest

end Runs

end Calls
