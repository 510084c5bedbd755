import Mathlib.Data.List.Forall2
import Mathlib.Tactic.Common

/-! Calls that may fail, one after the other or over a list, and calls that may also not return
within the fuel they are given. -/
namespace Calls

variable {ε α β σ ι : Type}

section Except
variable {f : α → Except ε β}

theorem error_ne_ok {e : ε} {a : α} : (Except.error e : Except ε α) ≠ .ok a := by
  intro h
  cases h

theorem bind_ok_inv {x : Except ε α} {b : β} (h : (x >>= f) = .ok b) : ∃ a, x = .ok a ∧ f a = .ok b := by
  cases x with
  | error e => cases h
  | ok a => exact ⟨a, rfl, h⟩

theorem map_ok_inv {x : Except ε α} {g : α → β} {b : β} (h : g <$> x = .ok b) : ∃ a, x = .ok a ∧ g a = b := by
  cases x with
  | error e => cases h
  | ok a => exact ⟨a, rfl, Except.ok.inj h⟩

theorem bind_error_inv {x : Except ε α} {e : ε} (h : (x >>= f) = .error e) :
    x = .error e ∨ ∃ a, x = .ok a ∧ f a = .error e := by
  cases x with
  | error e' => exact .inl (congrArg Except.error (Except.error.inj h))
  | ok a => exact .inr ⟨a, rfl, h⟩

theorem map_error_inv {x : Except ε α} {g : α → β} {e : ε} (h : g <$> x = .error e) : x = .error e := by
  cases x with
  | error e' => exact congrArg Except.error (Except.error.inj h)
  | ok a => cases h

theorem toOption_eq_some {x : Except ε α} {a : α} : x.toOption = some a ↔ x = .ok a := by
  cases x with
  | error e => exact iff_of_false nofun error_ne_ok
  | ok b => exact Option.some.injEq b a ▸ (Except.ok.injEq b a).symm ▸ Iff.rfl

theorem mapM_ok {g : α → β} {l : List α} (hf : ∀ a ∈ l, f a = .ok (g a)) : l.mapM f = .ok (l.map g) := by
  induction l with
  | nil => rfl
  | cons a l ih =>
      rw [List.mapM_cons, hf a List.mem_cons_self, ih fun x hx => hf x (List.mem_cons_of_mem _ hx)]
      rfl

/-- The results of a `mapM` are those of the elements, in their order. -/
theorem mapM_forall₂ {l : List α} {r : List β} (h : l.mapM f = .ok r) :
    List.Forall₂ (fun a b => f a = .ok b) l r := by
  induction l generalizing r with
  | nil =>
      cases h
      exact .nil
  | cons a l ih =>
      rw [List.mapM_cons] at h
      obtain ⟨b, hb, h⟩ := bind_ok_inv h
      obtain ⟨bs, hbs, h⟩ := bind_ok_inv h
      cases h
      exact .cons hb (ih hbs)

theorem mapM_ok_inv {l : List α} {r : List β} (h : l.mapM f = .ok r) :
    r.length = l.length ∧ (∀ b ∈ r, ∃ a ∈ l, f a = .ok b) ∧ ∀ a ∈ l, ∃ b ∈ r, f a = .ok b := by
  have hall := mapM_forall₂ h
  clear h
  induction hall with
  | nil => exact ⟨rfl, List.forall_mem_nil _, List.forall_mem_nil _⟩
  | @cons a b l r hab _ ih =>
      obtain ⟨hlen, hfrom, hto⟩ := ih
      refine ⟨congrArg Nat.succ hlen, ?_, ?_⟩
      · intro y hy
        rcases List.mem_cons.mp hy with rfl | hy
        · exact ⟨a, List.mem_cons_self, hab⟩
        · obtain ⟨x, hx, hxy⟩ := hfrom y hy
          exact ⟨x, List.mem_cons_of_mem _ hx, hxy⟩
      · intro x hx
        rcases List.mem_cons.mp hx with rfl | hx
        · exact ⟨b, List.mem_cons_self, hab⟩
        · obtain ⟨y, hy, hxy⟩ := hto x hx
          exact ⟨y, List.mem_cons_of_mem _ hy, hxy⟩

theorem mapM_exists {l : List α} (h : ∀ a ∈ l, ∃ b, f a = .ok b) : ∃ r, l.mapM f = .ok r := by
  induction l with
  | nil => exact ⟨[], rfl⟩
  | cons a l ih =>
      obtain ⟨b, hb⟩ := h a List.mem_cons_self
      obtain ⟨bs, hbs⟩ := ih fun x hx => h x (List.mem_cons_of_mem _ hx)
      exact ⟨b :: bs, by rw [List.mapM_cons, hb, hbs]; rfl⟩

theorem mapM_cons_error {a : α} {l : List α} {e : ε} : (a :: l).mapM f = .error e ↔
    f a = .error e ∨ (∃ b, f a = .ok b) ∧ l.mapM f = .error e := by
  rw [List.mapM_cons]
  constructor
  · intro h
    rcases bind_error_inv h with ha | ⟨b, hb, h⟩
    · exact .inl ha
    · rcases bind_error_inv h with hl | ⟨bs, -, h⟩
      · exact .inr ⟨⟨b, hb⟩, hl⟩
      · cases h
  · rintro (ha | ⟨⟨b, hb⟩, hl⟩)
    · rw [ha]
      rfl
    · rw [hb, hl]
      rfl

/-- A failing `mapM` fails at the first element that does. -/
theorem mapM_error_iff {l : List α} {e : ε} : l.mapM f = .error e ↔
    ∃ before x after, l = before ++ x :: after ∧ (∀ a ∈ before, ∃ b, f a = .ok b) ∧ f x = .error e := by
  constructor
  · intro h
    induction l with
    | nil => cases h
    | cons a l ih =>
        rcases mapM_cons_error.mp h with ha | ⟨ha, hl⟩
        · exact ⟨[], a, l, rfl, List.forall_mem_nil _, ha⟩
        · obtain ⟨before, x, after, rfl, hbefore, hx⟩ := ih hl
          exact ⟨a :: before, x, after, rfl, List.forall_mem_cons.mpr ⟨ha, hbefore⟩, hx⟩
  · rintro ⟨before, x, after, rfl, hbefore, hx⟩
    induction before with
    | nil => exact mapM_cons_error.mpr (.inl hx)
    | cons a before ih =>
        obtain ⟨ha, hbefore⟩ := List.forall_mem_cons.mp hbefore
        exact mapM_cons_error.mpr (.inr ⟨ha, ih hbefore⟩)

/-- What is in the lists that all elements give. -/
theorem mapM_lists {g : α → Except ε (List β)} {l : List α} (h : ∀ a ∈ l, ∃ bs, g a = .ok bs) :
    ∃ bss, l.mapM g = .ok bss ∧ ∀ b, b ∈ bss.flatten ↔ ∃ a ∈ l, ∃ bs, g a = .ok bs ∧ b ∈ bs := by
  obtain ⟨bss, hbss⟩ := mapM_exists h
  obtain ⟨-, hfrom, hall⟩ := mapM_ok_inv hbss
  refine ⟨bss, hbss, ?_⟩
  intro b
  rw [List.mem_flatten]
  constructor
  · rintro ⟨bs, hbs, hb⟩
    obtain ⟨a, ha, hga⟩ := hfrom bs hbs
    exact ⟨a, ha, bs, hga, hb⟩
  · rintro ⟨a, ha, bs, hga, hb⟩
    obtain ⟨bs', hbs', hga'⟩ := hall a ha
    rw [hga, Except.ok.injEq] at hga'
    exact ⟨bs', hbs', hga' ▸ hb⟩

theorem mem_flatten_mapM {g : α → Except ε (List β)} {l : List α} {bss : List (List β)} (h : l.mapM g = .ok bss)
    {b : β} : b ∈ bss.flatten ↔ ∃ a ∈ l, ∃ bs, g a = .ok bs ∧ b ∈ bs := by
  obtain ⟨-, -, hall⟩ := mapM_ok_inv h
  obtain ⟨bss', h', hmem⟩ := mapM_lists fun a ha => (hall a ha).imp fun bs hbs => hbs.2
  rw [h, Except.ok.injEq] at h'
  rw [h', hmem]

theorem forM_ok_iff {check : α → Except ε Unit} {l : List α} :
    l.forM check = .ok () ↔ ∀ a ∈ l, check a = .ok () := by
  induction l with
  | nil => exact iff_of_true rfl (List.forall_mem_nil _)
  | cons a l ih =>
      rw [List.forall_mem_cons, ← ih]
      change (check a >>= fun _ => l.forM check) = .ok () ↔ _
      cases check a with
      | error e => exact iff_of_false error_ne_ok fun h => error_ne_ok h.1
      | ok u => exact (and_iff_right rfl).symm

/-- A failing `forM` fails at the first element that does. -/
theorem forM_error_iff {check : α → Except ε Unit} {l : List α} {e : ε} : l.forM check = .error e ↔
    ∃ before x after, l = before ++ x :: after ∧ (∀ a ∈ before, check a = .ok ()) ∧ check x = .error e := by
  have hforM : l.forM check = (fun _ => ()) <$> l.mapM check := by
    induction l with
    | nil => rfl
    | cons a l ih =>
        change (check a >>= fun _ => l.forM check) = _
        rw [List.mapM_cons, ih]
        cases check a with
        | error e' => rfl
        | ok u =>
            cases l.mapM check with
            | error e' => rfl
            | ok us => rfl
  have herror : l.forM check = .error e ↔ l.mapM check = .error e := by
    constructor
    · intro h
      exact map_error_inv (hforM.symm.trans h)
    · intro h
      rw [hforM, h]
      rfl
  have hunit (a : α) : (∃ b, check a = .ok b) ↔ check a = .ok () :=
    ⟨fun ⟨(), h⟩ => h, fun h => ⟨(), h⟩⟩
  simp only [herror, mapM_error_iff, hunit]

theorem mapError_ok_iff {ε' : Type} {call : Except ε α} {g : ε → ε'} {a : α} :
    call.mapError g = .ok a ↔ call = .ok a := by
  cases call with
  | error e => exact iff_of_false error_ne_ok error_ne_ok
  | ok b =>
      rw [Except.mapError, Except.ok.injEq, Except.ok.injEq]

end Except

abbrev Call (ε : Type) := ExceptT ε Option

def Call.Returns (call : Call ε α) (a : α) : Prop := call.run = some (.ok a)

/-- A call that returns at once. -/
def Call.of (result : Except ε α) : Call ε α := ExceptT.mk (some result)

theorem returns_of {result : Except ε α} {a : α} : (Call.of result).Returns a ↔ result = .ok a := Option.some_inj

theorem returns_pure {a b : α} : (pure a : Call ε α).Returns b ↔ a = b := by
  constructor
  · intro h
    exact Except.ok.inj (Option.some.inj h)
  · rintro rfl
    rfl

theorem returns_bind {call : Call ε α} {f : α → Call ε β} {b : β} :
    (call >>= f).Returns b ↔ ∃ a, call.Returns a ∧ (f a).Returns b := by
  rcases call with _ | e | a
  · apply iff_of_false (fun h => nomatch h)
    rintro ⟨a, h, -⟩
    cases h
  · apply iff_of_false (fun h => nomatch h)
    rintro ⟨a, h, -⟩
    cases h
  · constructor
    · intro h
      exact ⟨a, rfl, h⟩
    · rintro ⟨c, hc, h⟩
      cases hc
      exact h

theorem Call.Returns.bind {call : Call ε α} {f : α → Call ε β} {b : β} (h : (call >>= f).Returns b) :
    ∃ a, call.Returns a ∧ (f a).Returns b := returns_bind.mp h

theorem returns_except {call : Except ε α} {a : α} : (liftM call : Call ε α).Returns a ↔ call = .ok a := by
  constructor
  · intro h
    exact Option.some.inj h
  · rintro rfl
    rfl

theorem returns_option {call : Option α} {a : α} : (liftM call : Call ε α).Returns a ↔ call = some a := by
  cases call with
  | none =>
      constructor
      · intro h
        cases h
      · intro h
        cases h
  | some b =>
      constructor
      · intro h
        rw [Except.ok.inj (Option.some.inj h)]
      · intro h
        rw [Option.some.inj h]
        rfl

theorem returns_adapt {ε' : Type} {g : ε → ε'} {call : Call ε α} {a : α} :
    Call.Returns (ExceptT.adapt g call) a ↔ call.Returns a := by
  rcases call with _ | e | b
  · exact iff_of_false (fun h => nomatch h) (fun h => nomatch h)
  · exact iff_of_false (fun h => nomatch h) (fun h => nomatch h)
  · constructor
    · intro h
      rw [Except.ok.inj (Option.some.inj h)]
      rfl
    · intro h
      rw [Except.ok.inj (Option.some.inj h)]
      rfl

theorem not_returns_throw {e : ε} {a : α} : ¬ (throw e : Call ε α).Returns a := by
  intro h
  cases h

/-- What every turn of a loop keeps, over the elements that are done, the whole loop keeps. -/
theorem Call.Returns.foldlM {step : σ → ι → Call ε σ} {P : List ι → σ → Prop}
    (hstep : ∀ done s a s', P done s → (step s a).Returns s' → P (done ++ [a]) s')
    {done : List ι} {s : σ} (hs : P done s) {todo : List ι} {s' : σ} (h : (todo.foldlM step s).Returns s') :
    P (done ++ todo) s' := by
  induction todo generalizing done s with
  | nil =>
      rw [List.foldlM_nil, returns_pure] at h
      rw [List.append_nil]
      exact h ▸ hs
  | cons a todo ih =>
      rw [List.foldlM_cons] at h
      obtain ⟨t, ht, hrest⟩ := h.bind
      have hall := ih (hstep done s a t hs ht) hrest
      rwa [List.append_assoc] at hall

end Calls
