import Mathlib.Tactic.Common

/-! Programs that ask questions and go on from the answers. A run depends on no answer but those to
the questions it asks, so what answers these alike can stand in for what was asked first. -/
namespace Programs

inductive Program (Q : Type) (R : Q → Type) (α : Type) where
  | done (a : α)
  | ask (q : Q) (next : R q → Program Q R α)

namespace Program
variable {Q : Type} {R : Q → Type} {α β σ ε : Type}

/-- A program that is followed by another one. -/
def bind (p : Program Q R α) (f : α → Program Q R β) : Program Q R β :=
  match p with
  | done a => f a
  | ask q next => ask q fun r => (next r).bind f

instance : Monad (Program Q R) where
  pure := done
  bind := bind

/-- A run, which stops at a question that has no answer. -/
def run (answer : (q : Q) → Option (R q)) : Program Q R α → Option α
  | done a => some a
  | ask q next => (answer q).bind fun r => (next r).run answer

/-- The questions of a run, with the one that stops it. -/
def asked (answer : (q : Q) → Option (R q)) : Program Q R α → List Q
  | done _ => []
  | ask q next => q :: (answer q).elim [] fun r => (next r).asked answer

/-- A run against something that keeps a state and may fail. -/
def serve (fetch : (q : Q) → σ → Except ε (R q) × σ) : Program Q R α → σ → Except ε α × σ
  | done a, s => (.ok a, s)
  | ask q next, s =>
      match fetch q s with
      | (.error e, s') => (.error e, s')
      | (.ok r, s') => (next r).serve fetch s'

variable {answer answer' : (q : Q) → Option (R q)} {p : Program Q R α}

theorem run_ask {q : Q} {next : R q → Program Q R α} {a : α} :
    (ask q next).run answer = some a ↔ ∃ r, answer q = some r ∧ (next r).run answer = some a :=
  Option.bind_eq_some_iff

theorem asked_ask {q : Q} {next : R q → Program Q R α} {r : R q} (h : answer q = some r) :
    (ask q next).asked answer = q :: (next r).asked answer := by
  rw [asked, h, Option.elim_some]

/-- A program that asks only some questions, whatever the replies are. -/
inductive Asks (P : Q → Prop) : Program Q R α → Prop
  | done (a : α) : Asks P (.done a)
  | ask {q : Q} {next : R q → Program Q R α} (hq : P q) (h : ∀ r, Asks P (next r)) : Asks P (.ask q next)

theorem Asks.asked {P : Q → Prop} (h : Asks P p) : ∀ q ∈ p.asked answer, P q := by
  induction h with
  | done a => exact List.forall_mem_nil _
  | @ask q next hq hnext ih =>
      rw [Program.asked]
      refine List.forall_mem_cons.mpr ⟨hq, ?_⟩
      cases answer q with
      | none => exact List.forall_mem_nil _
      | some r => exact ih r

/-- Two programs that ask alike, that cannot tell some replies from others, and that come to ends of
which the second one fits the first. -/
inductive Alike (same : (q : Q) → R q → R q → Prop) (fits : α → β → Prop) : Program Q R α → Program Q R β → Prop
  | done {a : α} {b : β} (h : fits a b) : Alike same fits (.done a) (.done b)
  | ask (q : Q) {next : R q → Program Q R α} {next' : R q → Program Q R β}
      (h : ∀ r r', same q r r' → Alike same fits (next r) (next' r')) : Alike same fits (.ask q next) (.ask q next')

theorem Alike.refl (p : Program Q R α) : Alike (fun _ => Eq) Eq p p := by
  induction p with
  | done a => exact .done rfl
  | ask q next ih => exact .ask q fun r r' h => h ▸ ih r

/-- Where the questions of a run are answered the same, a program that is alike comes to an end that fits. -/
theorem Alike.run {same : (q : Q) → R q → R q → Prop} {fits : α → β → Prop} {p' : Program Q R β}
    (halike : Alike same fits p p') {a : α}
    (h : ∀ q ∈ p.asked answer, ∀ r, answer q = some r → ∃ r', answer' q = some r' ∧ same q r r')
    (hrun : p.run answer = some a) : ∃ b, p'.run answer' = some b ∧ fits a b := by
  induction halike with
  | @done a' b hfits => exact ⟨b, rfl, Option.some.inj hrun ▸ hfits⟩
  | ask q hnext ih =>
      obtain ⟨r, hr, hrun⟩ := run_ask.mp hrun
      rw [asked_ask hr] at h
      obtain ⟨hq, hrest⟩ := List.forall_mem_cons.mp h
      obtain ⟨r', hr', hsame⟩ := hq r hr
      obtain ⟨b, hb, hfits⟩ := ih r r' hsame hrest hrun
      exact ⟨b, run_ask.mpr ⟨r', hr', hb⟩, hfits⟩

/-- Where all its questions are answered the same, a program comes to the same end. -/
theorem run_congr {a : α} (h : ∀ q ∈ p.asked answer, ∀ r, answer q = some r → answer' q = some r)
    (hrun : p.run answer = some a) : p.run answer' = some a := by
  obtain ⟨b, hb, rfl⟩ := (Alike.refl p).run (fun q hq r hr => ⟨r, h q hq r hr, rfl⟩) hrun
  exact hb

/-- A run that ends has an answer to each question that is asked where there are more answers. -/
theorem run_asked {a : α} (h : ∀ q r, answer q = some r → answer' q = some r) (hrun : p.run answer = some a) :
    ∀ q ∈ p.asked answer', ∃ r, answer q = some r := by
  induction p with
  | done b => exact List.forall_mem_nil _
  | ask q next ih =>
      obtain ⟨r, hr, hrun⟩ := run_ask.mp hrun
      rw [asked_ask (h q r hr)]
      exact List.forall_mem_cons.mpr ⟨⟨r, hr⟩, ih r hrun⟩

/-- Where there are fewer answers, a run comes to the same end exactly when its questions still have theirs. -/
theorem run_iff_of_le {a : α} (h : ∀ q r, answer q = some r → answer' q = some r) (hrun : p.run answer' = some a) :
    p.run answer = some a ↔ ∀ q ∈ p.asked answer', ∃ r, answer q = some r := by
  constructor
  · exact run_asked h
  · intro hall
    refine run_congr ?_ hrun
    intro q hq r hr
    obtain ⟨r', hr'⟩ := hall q hq
    rw [hr', ← h q r' hr', hr]

/-- What the replies of a stateful answerer are worth: they are true, they keep an invariant, and
what is once recorded stays recorded. -/
structure Records (fetch : (q : Q) → σ → Except ε (R q) × σ) (inv : σ → Prop) (recorded : σ → Q → Prop)
    (truth : (q : Q) → Option (R q)) : Prop where
  reply : ∀ q s r s', inv s → fetch q s = (.ok r, s') → truth q = some r ∧ inv s' ∧ recorded s' q
  kept : ∀ q s r s', inv s → fetch q s = (.ok r, s') → ∀ q', recorded s q' → recorded s' q'

/-- A run that is served comes to the true end, and every question of it is recorded. -/
theorem Records.serve {fetch : (q : Q) → σ → Except ε (R q) × σ} {inv : σ → Prop} {recorded : σ → Q → Prop}
    {truth : (q : Q) → Option (R q)} (h : Records fetch inv recorded truth) {a : α} {s s' : σ} (hs : inv s)
    (hrun : p.serve fetch s = (.ok a, s')) :
    p.run truth = some a ∧ inv s' ∧ (∀ q ∈ p.asked truth, recorded s' q) ∧ ∀ q, recorded s q → recorded s' q := by
  induction p generalizing s with
  | done b =>
      rw [Program.serve, Prod.mk.injEq, Except.ok.injEq] at hrun
      obtain ⟨rfl, rfl⟩ := hrun
      exact ⟨rfl, hs, List.forall_mem_nil _, fun q hq => hq⟩
  | ask q next ih =>
      rw [Program.serve] at hrun
      cases hfetch : fetch q s with
      | mk reply s₁ =>
          rw [hfetch] at hrun
          cases reply with
          | error e => cases hrun
          | ok r =>
              obtain ⟨htruth, hs₁, hq⟩ := h.reply q s r s₁ hs hfetch
              obtain ⟨hend, hs', hasked, hkept⟩ := ih r hs₁ hrun
              refine ⟨run_ask.mpr ⟨r, htruth, hend⟩, hs', ?_, ?_⟩
              · rw [asked_ask htruth]
                exact List.forall_mem_cons.mpr ⟨hkept q hq, hasked⟩
              · intro q' hq'
                exact hkept q' (h.kept q s r s₁ hs hfetch q' hq')

/-- What answers without a state comes to the end that its answers lead to. -/
theorem serve_stateless {fetch : (q : Q) → σ → Except ε (R q)} {a : α} {s s' : σ}
    (hrun : p.serve (fun q s => (fetch q s, s)) s = (.ok a, s')) :
    s' = s ∧ p.run (fun q => (fetch q s).toOption) = some a := by
  induction p with
  | done b =>
      rw [serve, Prod.mk.injEq, Except.ok.injEq] at hrun
      obtain ⟨rfl, rfl⟩ := hrun
      exact ⟨rfl, rfl⟩
  | ask q next ih =>
      rw [serve] at hrun
      cases hfetch : fetch q s with
      | error e =>
          rw [hfetch] at hrun
          cases hrun
      | ok r =>
          rw [hfetch] at hrun
          obtain ⟨rfl, hend⟩ := ih r hrun
          exact ⟨rfl, run_ask.mpr ⟨r, by rw [hfetch]; rfl, hend⟩⟩

end Program

end Programs
