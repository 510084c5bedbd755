import RethProcessor.Lockstep

/-! The binary that follows a chain. Its main loop spawns a task for each block while there are
permits, and exits when it sees that one has failed; the tasks run beside it in any order. -/
namespace RethProcessor.Continuous
open Lockstep

/-- How far the task of a block has come. -/
inductive Phase where
  | processing
  | failing
  | finished (ok : Bool)
  | released (ok : Bool)
  | unwound
  deriving DecidableEq

/-- A task that has not dropped its permit. -/
def Phase.holds : Phase → Bool
  | processing => true
  | failing => true
  | finished _ => true
  | released _ => false
  | unwound => false

/-- The moves of a task. A panic in the processing of the block drops the permit and stores nothing. -/
inductive Move where
  | succeed
  | fail
  | store
  | drop
  | unwind
  deriving DecidableEq

def Move.next : Move → Phase → Option Phase
  | succeed, .processing => some (.finished true)
  | fail, .processing => some .failing
  | store, .failing => some (.finished false)
  | drop, .finished ok => some (.released ok)
  | unwind, .processing => some .unwound
  | _, _ => none

structure Task where
  block : UInt64
  phase : Phase

/-- Where the main loop stands: before it has a permit, before it has spawned the task, before it has
looked at the flag, and after its panic. -/
inductive Main where
  | acquiring
  | spawning
  | checking
  | exited
  deriving DecidableEq

/-- `aware` says that a permit was acquired after a failed task had dropped its own. -/
structure State where
  permits : Nat
  blockNumber : UInt64
  tasks : List Task
  failed : Bool
  aware : Bool
  main : Main

def start (first : UInt64) (max : Nat) : State := ⟨max, first, [], false, false, .acquiring⟩

inductive Action where
  | acquire
  | spawn
  | load (value : Bool)
  | task (i : Nat) (move : Move)

def State.acquire (s : State) : State :=
  { s with
    permits := s.permits - 1
    aware := s.aware || s.tasks.any fun t => t.phase = .released false
    main := .spawning }

def State.spawn (s : State) : State :=
  { s with
    tasks := s.tasks ++ [⟨s.blockNumber, .processing⟩]
    main := .checking }

def State.load (s : State) (value : Bool) : State :=
  if value then { s with main := .exited } else { s with blockNumber := s.blockNumber + 1, main := .acquiring }

/-- A task comes to a phase. -/
def State.advance (s : State) (i : Nat) (t : Task) (move : Move) (phase : Phase) : State :=
  { s with
    permits := if t.phase.holds ∧ ¬ phase.holds then s.permits + 1 else s.permits
    tasks := s.tasks.set i { t with phase := phase }
    failed := s.failed || move = .store }

/-- One action of the main loop or of a task. The flag is loaded relaxed: a value that was stored has
to be seen only where the permit of its task was dropped before one was acquired. -/
def step (s : State) : Action → Option State
  | .acquire => if s.main = .acquiring ∧ 0 < s.permits then some s.acquire else none
  | .spawn => if s.main = .spawning then some s.spawn else none
  | .load value =>
      if s.main = .checking ∧ (value → s.failed) ∧ (s.aware → value) then some (s.load value) else none
  | .task i move =>
      if s.main = .exited then none
      else do
        let t ← s.tasks[i]?
        let phase ← move.next t.phase
        some (s.advance i t move phase)

/-- A task that has failed, and has stored the flag. -/
def Phase.Failed (phase : Phase) : Prop := phase = .finished false ∨ phase = .released false

/-- The permits that are taken. -/
def State.held (s : State) : Nat :=
  (s.tasks.countP fun t => t.phase.holds) + if s.main = .spawning then 1 else 0

/-- The blocks that the main loop has left behind. -/
def State.behind (s : State) : Nat :=
  if s.main = .checking ∨ s.main = .exited then s.tasks.length - 1 else s.tasks.length

/-- What holds in every state: no permit is lost, the blocks are spawned one after the other, the
flag is stored exactly where a task has failed, and nothing else ends the main loop. -/
structure Consistent (first : UInt64) (max : Nat) (s : State) : Prop where
  permits : s.permits + s.held = max
  blocks : ∀ i t, s.tasks[i]? = some t → t.block = first + .ofNat i
  number : s.blockNumber = first + .ofNat s.behind
  spawned : s.main = .checking ∨ s.main = .exited → s.tasks ≠ []
  failed : s.failed = true ↔ ∃ t ∈ s.tasks, t.phase.Failed
  aware : s.aware = true → s.failed = true
  exited : s.main = .exited → s.failed = true

/-- The tasks that the main loop can still spawn once a failed task has dropped its permit. -/
def State.slack (s : State) : Nat :=
  match s.main, s.aware with
  | .acquiring, _ => 1
  | .spawning, true => 1
  | .spawning, false => 2
  | .checking, true => 0
  | .checking, false => 1
  | .exited, _ => 0

/-- The actions that it can still take then. -/
def State.rest (s : State) : Nat :=
  match s.main, s.aware with
  | .acquiring, _ => 3
  | .spawning, true => 2
  | .spawning, false => 5
  | .checking, true => 1
  | .checking, false => 4
  | .exited, _ => 0

/-- The actions of the main loop. -/
def Action.ofMain : Action → Bool
  | task _ _ => false
  | _ => true

section Steps
variable {s s' : State} {first : UInt64} {max : Nat}

theorem step_acquire : step s .acquire = some s' ↔ (s.main = .acquiring ∧ 0 < s.permits) ∧ s.acquire = s' := by
  rw [step, Option.ite_none_right_eq_some, Option.some.injEq]

theorem step_spawn : step s .spawn = some s' ↔ s.main = .spawning ∧ s.spawn = s' := by
  rw [step, Option.ite_none_right_eq_some, Option.some.injEq]

theorem step_load {value : Bool} : step s (.load value) = some s' ↔
    (s.main = .checking ∧ (value → s.failed) ∧ (s.aware → value)) ∧ s.load value = s' := by
  rw [step, Option.ite_none_right_eq_some, Option.some.injEq]

theorem step_task {i : Nat} {move : Move} : step s (.task i move) = some s' ↔
    s.main ≠ .exited ∧ ∃ t phase, s.tasks[i]? = some t ∧ move.next t.phase = some phase ∧
      s.advance i t move phase = s' := by
  rw [step, Option.ite_none_left_eq_some]
  simp only [bind, Option.bind_eq_some_iff, Option.some.injEq, exists_and_left]

/-- A move stores the flag when it makes a failed task of one that was not. -/
theorem Move.failed_iff {move : Move} {phase phase' : Phase} (h : move.next phase = some phase') :
    phase'.Failed ↔ phase.Failed ∨ move = .store := by
  unfold Move.next at h
  split at h
  all_goals first | (cases h; simp [Phase.Failed]) | cases h

/-- A task that does not hold a permit has come to its end. -/
theorem Move.holds_of_next {move : Move} {phase phase' : Phase} (h : move.next phase = some phase') :
    phase.holds = true := by
  unfold Move.next at h
  split at h
  all_goals first | rfl | cases h

theorem Phase.exists_move {phase : Phase} (h : phase.holds = true) : ∃ move phase', Move.next move phase = some phase' := by
  cases phase with
  | processing => exact ⟨.succeed, _, rfl⟩
  | failing => exact ⟨.store, _, rfl⟩
  | finished ok => exact ⟨.drop, _, rfl⟩
  | released ok => cases h
  | unwound => cases h

theorem exists_mem_set {tasks : List Task} {i : Nat} {t u : Task} (ht : tasks[i]? = some t) {P : Task → Prop}
    (h : P t → P u) : (∃ x ∈ tasks.set i u, P x) ↔ (∃ x ∈ tasks, P x) ∨ P u := by
  have hi : i < tasks.length := (List.getElem?_eq_some_iff.mp ht).1
  constructor
  · rintro ⟨x, hx, hp⟩
    rcases List.mem_or_eq_of_mem_set hx with hx | rfl
    · exact .inl ⟨x, hx, hp⟩
    · exact .inr hp
  · rintro (⟨x, hx, hp⟩ | hp)
    · obtain ⟨j, hj⟩ := List.mem_iff_getElem?.mp hx
      by_cases hij : i = j
      · rw [← hij, ht, Option.some.injEq] at hj
        exact ⟨u, List.mem_set hi u, h (hj ▸ hp)⟩
      · exact ⟨x, List.mem_iff_getElem?.mpr ⟨j, by rw [List.getElem?_set_ne hij, hj]⟩, hp⟩
    · exact ⟨u, List.mem_set hi u, hp⟩

theorem consistent_start : Consistent first max (start first max) where
  permits := rfl
  blocks i t ht := by cases ht
  number := (UInt64.add_zero first).symm
  spawned h := by rcases h with h | h <;> cases h
  failed := iff_of_false Bool.false_ne_true (by rintro ⟨t, ht, -⟩; cases ht)
  aware h := by cases h
  exited h := by cases h

theorem Consistent.acquire (h : Consistent first max s) (hmain : s.main = .acquiring) (hpermits : 0 < s.permits) :
    Consistent first max s.acquire := by
  have hheld := h.permits
  simp only [State.held, hmain, reduceCtorEq, if_false] at hheld
  have hnumber := h.number
  simp only [State.behind, hmain, reduceCtorEq, or_self, if_false] at hnumber
  refine ⟨?_, h.blocks, ?_, ?_, h.failed, ?_, ?_⟩
  · simp only [State.held, State.acquire, if_true]
    omega
  · simp only [State.behind, State.acquire, reduceCtorEq, or_self, if_false]
    exact hnumber
  · simp only [State.acquire, reduceCtorEq, or_self, false_implies]
  · intro haware
    simp only [State.acquire, Bool.or_eq_true, List.any_eq_true, decide_eq_true_eq] at haware
    rcases haware with haware | ⟨t, ht, hphase⟩
    · exact h.aware haware
    · exact h.failed.mpr ⟨t, ht, .inr hphase⟩
  · simp only [State.acquire, reduceCtorEq, false_implies]

theorem Consistent.spawn (h : Consistent first max s) (hmain : s.main = .spawning) : Consistent first max s.spawn := by
  have hheld := h.permits
  simp only [State.held, hmain, if_true] at hheld
  have hnumber := h.number
  simp only [State.behind, hmain, reduceCtorEq, or_self, if_false] at hnumber
  refine ⟨?_, ?_, ?_, ?_, ?_, h.aware, ?_⟩
  · simp only [State.held, State.spawn, List.countP_append, reduceCtorEq, if_false]
    exact hheld
  · intro i t ht
    simp only [State.spawn] at ht
    rcases Nat.lt_trichotomy i s.tasks.length with hlt | rfl | hgt
    · rw [List.getElem?_append_left hlt] at ht
      exact h.blocks i t ht
    · rw [List.getElem?_concat_length, Option.some.injEq] at ht
      rw [← ht, hnumber]
    · rw [List.getElem?_eq_none (by simp; omega)] at ht
      cases ht
  · simp only [State.behind, State.spawn, true_or, if_true, List.length_append, List.length_singleton,
      Nat.add_sub_cancel]
    exact hnumber
  · intro _ hnil
    exact absurd hnil (List.append_ne_nil_of_right_ne_nil _ (List.cons_ne_nil _ _))
  · simp only [State.spawn, List.mem_append, List.mem_singleton, or_and_right, exists_or, exists_eq_left]
    rw [h.failed, or_iff_left]
    rintro (hp | hp) <;> cases hp
  · simp only [State.spawn, reduceCtorEq, false_implies]

theorem Consistent.load (h : Consistent first max s) (hmain : s.main = .checking) {value : Bool}
    (hvalue : value → s.failed) : Consistent first max (s.load value) := by
  have hheld := h.permits
  simp only [State.held, hmain, reduceCtorEq, if_false] at hheld
  have hnumber := h.number
  simp only [State.behind, hmain, true_or, if_true] at hnumber
  have hspawned := h.spawned (.inl hmain)
  cases value with
  | true =>
      refine ⟨?_, h.blocks, ?_, fun _ => hspawned, h.failed, h.aware, fun _ => hvalue rfl⟩
      · simp only [State.held, State.load, if_true, reduceCtorEq, if_false]
        exact hheld
      · simp only [State.behind, State.load, if_true, reduceCtorEq, false_or]
        exact hnumber
  | false =>
      refine ⟨?_, h.blocks, ?_, ?_, h.failed, h.aware, ?_⟩
      · simp only [State.held, State.load, Bool.false_eq_true, reduceCtorEq, if_false]
        exact hheld
      · have hlen : 0 < s.tasks.length := List.length_pos_iff.mpr hspawned
        simp only [State.behind, State.load, Bool.false_eq_true, reduceCtorEq, or_self, if_false]
        rw [hnumber, UInt64.add_assoc]
        congr 1
        rw [← UInt64.ofNat_one, ← UInt64.ofNat_add, Nat.sub_add_cancel hlen]
      · simp only [State.load, Bool.false_eq_true, if_false, reduceCtorEq, or_self, false_implies]
      · simp only [State.load, Bool.false_eq_true, if_false, reduceCtorEq, false_implies]

theorem Consistent.advance (h : Consistent first max s) {i : Nat} {t : Task} {move : Move} {phase : Phase}
    (ht : s.tasks[i]? = some t) (hnext : move.next t.phase = some phase) :
    Consistent first max (s.advance i t move phase) := by
  obtain ⟨hi, hti⟩ := List.getElem?_eq_some_iff.mp ht
  have hholds := Move.holds_of_next hnext
  have hlen : (s.tasks.set i { t with phase := phase }).length = s.tasks.length := List.length_set
  refine ⟨?_, ?_, ?_, ?_, ?_, ?_, ?_⟩
  · have hheld := h.permits
    have hcount : 0 < s.tasks.countP fun t => t.phase.holds :=
      List.countP_pos_iff.mpr ⟨t, List.mem_of_getElem? ht, hholds⟩
    simp only [State.held] at hheld
    simp only [State.held, State.advance, List.countP_set hi, hti, hholds, true_and, if_true]
    cases phase.holds with
    | true =>
        simp only [not_true_eq_false, if_false, if_true]
        omega
    | false =>
        simp only [Bool.false_eq_true, not_false_eq_true, if_true, if_false]
        omega
  · intro j u hu
    simp only [State.advance] at hu
    by_cases hij : i = j
    · rw [← hij, List.getElem?_set_self hi, Option.some.injEq] at hu
      rw [← hu, ← hij]
      exact h.blocks i t ht
    · rw [List.getElem?_set_ne hij] at hu
      exact h.blocks j u hu
  · simp only [State.behind, State.advance, hlen]
    exact h.number
  · intro hmain
    have hne := h.spawned hmain
    simp only [State.advance]
    exact fun hnil => hne (List.set_eq_nil_iff i _ |>.mp hnil)
  · have hfailed := Move.failed_iff hnext
    simp only [State.advance, Bool.or_eq_true, decide_eq_true_eq]
    rw [exists_mem_set (P := fun t => t.phase.Failed) ht fun hp => hfailed.mpr (.inl hp), hfailed, ← h.failed, ← or_assoc]
    refine or_congr_left (or_iff_left_of_imp ?_).symm
    exact fun hp => h.failed.mpr ⟨t, List.mem_of_getElem? ht, hp⟩
  · intro haware
    simp only [State.advance, Bool.or_eq_true]
    exact .inl (h.aware haware)
  · intro hmain
    simp only [State.advance, Bool.or_eq_true]
    exact .inl (h.exited hmain)

theorem Consistent.step (h : Consistent first max s) {a : Action} (hs : Continuous.step s a = some s') :
    Consistent first max s' := by
  cases a with
  | acquire =>
      obtain ⟨⟨hmain, hpermits⟩, rfl⟩ := step_acquire.mp hs
      exact h.acquire hmain hpermits
  | spawn =>
      obtain ⟨hmain, rfl⟩ := step_spawn.mp hs
      exact h.spawn hmain
  | load value =>
      obtain ⟨⟨hmain, hvalue, -⟩, rfl⟩ := step_load.mp hs
      exact h.load hmain hvalue
  | task i move =>
      obtain ⟨-, t, phase, ht, hnext, rfl⟩ := step_task.mp hs
      exact h.advance ht hnext

theorem Consistent.run (h : Consistent first max s) {actions : List Action}
    (hrun : actions.foldlM Continuous.step s = some s') : Consistent first max s' :=
  @keeps _ _ Continuous.step (fun _ => Consistent first max) (fun _ => false)
    (fun _ _ _ _ hs hstep => hs.step hstep) _ 0 _ _ h hrun

/-- In every run every state is consistent. -/
theorem consistent_run {actions : List Action} (h : actions.foldlM Continuous.step (start first max) = some s) :
    Consistent first max s := consistent_start.run h

/-- A run in which the main loop acquires a permit, and then the task of the block before fails. -/
def lateActions : List Action :=
  [.acquire, .spawn, .load false, .acquire, .task 0 .fail, .task 0 .store, .task 0 .drop]

def lateState : State := ⟨1, 11, [⟨10, .released false⟩], true, false, .spawning⟩

theorem consistent_run_late : Consistent 10 2 lateState := consistent_run (rfl : lateActions.foldlM Continuous.step _ = _)

/-- After a failed task has dropped its permit, every action of the main loop brings it closer to its end. -/
theorem step_after_failure {a : Action} (hfailed : ∃ t ∈ s.tasks, t.phase = .released false)
    (h : Continuous.step s a = some s') : (∃ t ∈ s'.tasks, t.phase = .released false) ∧
      s'.tasks.length + s'.slack ≤ s.tasks.length + s.slack ∧ (if a.ofMain then 1 else 0) + s'.rest ≤ s.rest := by
  cases a with
  | acquire =>
      obtain ⟨⟨hmain, -⟩, rfl⟩ := step_acquire.mp h
      have haware : s.acquire.aware = true := by
        obtain ⟨t, ht, hphase⟩ := hfailed
        simp only [State.acquire, Bool.or_eq_true, List.any_eq_true, decide_eq_true_eq]
        exact .inr ⟨t, ht, hphase⟩
      have hspawning : s.acquire.main = .spawning := rfl
      refine ⟨hfailed, ?_, ?_⟩
      · simp only [State.slack, hmain, haware, hspawning]
        exact Nat.le_refl _
      · simp only [State.rest, hmain, haware, hspawning, Action.ofMain]
        exact Nat.le_refl _
  | spawn =>
      obtain ⟨hmain, rfl⟩ := step_spawn.mp h
      obtain ⟨t, ht, hphase⟩ := hfailed
      refine ⟨⟨t, List.mem_append_left _ ht, hphase⟩, ?_, ?_⟩
      · simp only [State.slack, hmain, State.spawn, List.length_append, List.length_singleton]
        cases s.aware with
        | true => exact Nat.le_refl _
        | false => exact Nat.le_refl _
      · simp only [State.rest, hmain, State.spawn, Action.ofMain]
        cases s.aware with
        | true => exact Nat.le_refl _
        | false => exact Nat.le_refl _
  | load value =>
      obtain ⟨⟨hmain, -, haware⟩, rfl⟩ := step_load.mp h
      cases value with
      | true =>
          refine ⟨hfailed, Nat.add_le_add_left (Nat.zero_le _) _, ?_⟩
          simp only [State.rest, hmain, State.load, if_true, Action.ofMain]
          cases s.aware with
          | true => exact Nat.le_refl _
          | false => exact Nat.le_add_left 1 3
      | false =>
          have hunaware : s.aware = false := Bool.eq_false_iff.mpr fun ha => Bool.false_ne_true (haware ha)
          refine ⟨hfailed, ?_, ?_⟩
          · simp only [State.slack, hmain, State.load, hunaware, Bool.false_eq_true, if_false]
            exact Nat.le_refl _
          · simp only [State.rest, hmain, State.load, hunaware, Bool.false_eq_true, if_false, Action.ofMain]
            exact Nat.le_refl _
  | task i move =>
      obtain ⟨-, t, phase, ht, hnext, rfl⟩ := step_task.mp h
      refine ⟨?_, ?_, ?_⟩
      · refine (exists_mem_set (P := fun t => t.phase = .released false) ht ?_).mpr (.inl hfailed)
        intro hphase
        rw [hphase] at hnext
        cases move <;> cases hnext
      · simp only [State.slack, State.advance, List.length_set]
        exact Nat.le_refl _
      · simp only [State.rest, State.advance, Action.ofMain, Bool.false_eq_true, if_false, Nat.zero_add]
        exact Nat.le_refl _

/-- Once a failed task has dropped its permit, the main loop spawns at most two more tasks and takes
at most five more actions, in whatever order the tasks run on. -/
theorem stops_after_failure {actions : List Action} (hfailed : ∃ t ∈ s.tasks, t.phase = .released false)
    (h : actions.foldlM Continuous.step s = some s') :
    s'.tasks.length + s'.slack ≤ s.tasks.length + s.slack ∧ actions.countP Action.ofMain + s'.rest ≤ s.rest ∧
      s.slack ≤ 2 ∧ s.rest ≤ 5 := by
  obtain ⟨-, hlength, hrest⟩ := @keeps _ _ Continuous.step (fun n t => (∃ u ∈ t.tasks, u.phase = .released false) ∧
      t.tasks.length + t.slack ≤ s.tasks.length + s.slack ∧ n + t.rest ≤ s.rest) Action.ofMain
    (fun n t a t' hn hstep => by
      obtain ⟨hkept, hlength, hrest⟩ := step_after_failure hn.1 hstep
      exact ⟨hkept, Nat.le_trans hlength hn.2.1, by have := hn.2.2; omega⟩)
    _ 0 _ _ ⟨hfailed, Nat.le_refl _, Nat.le_of_eq (Nat.zero_add _)⟩ h
  rw [Nat.zero_add] at hrest
  refine ⟨hlength, hrest, ?_, ?_⟩
  · unfold State.slack
    cases s.main <;> cases s.aware <;> decide
  · unfold State.rest
    cases s.main <;> cases s.aware <;> decide

/-- From the late state two more blocks are spawned, if the first look at the flag misses it. -/
def lateEnd : State :=
  ⟨0, 12, [⟨10, .released false⟩, ⟨11, .processing⟩, ⟨12, .processing⟩], true, true, .exited⟩

theorem stops_after_failure_late : lateEnd.tasks.length + lateEnd.slack ≤ lateState.tasks.length + lateState.slack ∧
    [.spawn, .load false, .acquire, .spawn, .load true].countP Action.ofMain + lateEnd.rest ≤ lateState.rest ∧
    lateState.slack ≤ 2 ∧ lateState.rest ≤ 5 :=
  stops_after_failure ⟨_, List.mem_singleton.mpr rfl, rfl⟩ rfl

/-- Where there is a permit to be had, something can always go on until the main loop has ended. -/
theorem exists_step_iff {actions : List Action} (h : actions.foldlM Continuous.step (start first max) = some s)
    (hmain : s.main ≠ .exited) : (∃ a s', Continuous.step s a = some s') ↔ 0 < max := by
  have hc := consistent_start.run h
  constructor
  · rintro ⟨a, s', hstep⟩
    rw [Nat.pos_iff_ne_zero]
    rintro rfl
    -- without a permit the first action is not to be had
    have hnone : ∀ b, Continuous.step (start first 0) b = none := by
      intro b
      cases b with
      | acquire => rfl
      | spawn => rfl
      | load value => rfl
      | task i move => rfl
    cases actions with
    | nil =>
        cases h
        rw [hnone] at hstep
        cases hstep
    | cons b actions =>
        rw [List.foldlM_cons, hnone] at h
        cases h
  · intro hmax
    have hheld := hc.permits
    cases hcase : s.main with
    | acquiring =>
        by_cases hpermits : 0 < s.permits
        · exact ⟨.acquire, s.acquire, step_acquire.mpr ⟨⟨hcase, hpermits⟩, rfl⟩⟩
        · simp only [State.held, hcase, reduceCtorEq, if_false] at hheld
          have hcount : 0 < s.tasks.countP fun t => t.phase.holds := by omega
          obtain ⟨t, ht, hholds⟩ := List.countP_pos_iff.mp hcount
          obtain ⟨i, hi⟩ := List.mem_iff_getElem?.mp ht
          obtain ⟨move, phase, hnext⟩ := Phase.exists_move hholds
          exact ⟨.task i move, s.advance i t move phase, step_task.mpr ⟨hmain, t, phase, hi, hnext, rfl⟩⟩
    | spawning => exact ⟨.spawn, s.spawn, step_spawn.mpr ⟨hcase, rfl⟩⟩
    | checking => exact ⟨.load s.failed, s.load s.failed, step_load.mpr ⟨⟨hcase, fun hv => hv, hc.aware⟩, rfl⟩⟩
    | exited => exact absurd hcase hmain

theorem exists_step_iff_late : (∃ a s', Continuous.step lateState a = some s') ↔ 0 < 2 :=
  exists_step_iff (rfl : lateActions.foldlM Continuous.step (start 10 2) = _) (by decide)

end Steps

section ProcessBlock
variable {σ E : Type}

/-- Something that is tried in a state. It may not come back within its fuel; else it succeeds or
fails, and leaves a state. -/
abbrev Attempt (σ E : Type) := Nat → σ → Option (Except E Unit × σ)

/-- `wait_for_block`: the provider is asked until it has the block. -/
def waitForBlock (getBlock : σ → Except E Bool × σ) : Attempt σ E
  | 0, _ => none
  | fuel + 1, s =>
      match getBlock s with
      | (.error e, s') => some (.error e, s')
      | (.ok true, s') => some (.ok (), s')
      | (.ok false, s') => waitForBlock getBlock fuel s'

/-- One of the two loops of `process_block`. The count wraps, as it does in the release profile. -/
def retry (attempt : Attempt σ E) (maxRetries : UInt64) (retryCount : UInt64) : Attempt σ E
  | 0, _ => none
  | fuel + 1, s =>
      match attempt fuel s with
      | none => none
      | some (.ok (), s') => some (.ok (), s')
      | some (.error e, s') =>
          if maxRetries < retryCount then some (.error e, s')
          else retry attempt maxRetries (retryCount + 1) fuel s'

def processBlock (getBlock : σ → Except E Bool × σ) (execute : σ → Option (Except E Unit × σ)) (maxRetries : UInt64) :
    Attempt σ E := fun fuel s =>
  match retry (waitForBlock getBlock) maxRetries 0 fuel s with
  | none => none
  | some (.error e, s') => some (.error e, s')
  | some (.ok (), s') => retry (fun _ => execute) maxRetries 0 fuel s'

/-- What an attempt comes to, with enough fuel. -/
def Ends (attempt : Attempt σ E) (s : σ) (result : Except E Unit) (s' : σ) : Prop :=
  ∃ enough, ∀ fuel, enough ≤ fuel → attempt fuel s = some (result, s')

/-- Some attempts that fail, one after the other. -/
inductive Fails (attempt : Attempt σ E) : Nat → σ → σ → Prop
  | zero (s : σ) : Fails attempt 0 s s
  | succ {n : Nat} {s t u : σ} {e : E} (h : Ends attempt s (.error e) t) (hrest : Fails attempt n t u) :
      Fails attempt (n + 1) s u

/-- How often the attempt may fail before a result, from a count on: for a success at most once more
than the maximum, for an error exactly so often, and without bound where the count never passes the maximum. -/
def Allowed (maxRetries retryCount : UInt64) (n : Nat) : Except E Unit → Prop
  | .ok () => maxRetries = -1 ∨ retryCount.toNat + n ≤ maxRetries.toNat + 1
  | .error _ => maxRetries ≠ -1 ∧ retryCount.toNat + n = maxRetries.toNat + 1

/-- An attempt that comes back does so with more fuel as well. -/
def Steady (attempt : Attempt σ E) : Prop :=
  ∀ fuel s result s', attempt fuel s = some (result, s') → Ends attempt s result s'

variable {attempt : Attempt σ E} {maxRetries : UInt64}

theorem retry_ok {retryCount : UInt64} {s s' : σ} (h : Ends attempt s (.ok ()) s') :
    Ends (retry attempt maxRetries retryCount) s (.ok ()) s' := by
  obtain ⟨enough, h⟩ := h
  refine ⟨enough + 1, ?_⟩
  intro fuel hfuel
  obtain ⟨fuel, rfl⟩ := Nat.exists_eq_add_of_le' (Nat.le_of_add_left_le hfuel)
  rw [retry, h fuel (Nat.le_of_add_le_add_right hfuel)]

theorem retry_error {retryCount : UInt64} {s s' : σ} {e : E} (h : Ends attempt s (.error e) s')
    (hlast : maxRetries < retryCount) : Ends (retry attempt maxRetries retryCount) s (.error e) s' := by
  obtain ⟨enough, h⟩ := h
  refine ⟨enough + 1, ?_⟩
  intro fuel hfuel
  obtain ⟨fuel, rfl⟩ := Nat.exists_eq_add_of_le' (Nat.le_of_add_left_le hfuel)
  rw [retry, h fuel (Nat.le_of_add_le_add_right hfuel)]
  exact if_pos hlast

theorem retry_again {retryCount : UInt64} {s t s' : σ} {e : E} {result : Except E Unit}
    (h : Ends attempt s (.error e) t) (hleft : ¬ maxRetries < retryCount) :
    Ends (retry attempt maxRetries retryCount) s result s' ↔
      Ends (retry attempt maxRetries (retryCount + 1)) t result s' := by
  obtain ⟨enough, h⟩ := h
  have hturn {fuel : Nat} (hfuel : enough ≤ fuel) : retry attempt maxRetries retryCount (fuel + 1) s =
      retry attempt maxRetries (retryCount + 1) fuel t := by
    rw [retry, h fuel hfuel]
    exact if_neg hleft
  constructor
  · rintro ⟨enough', h'⟩
    refine ⟨max enough enough', ?_⟩
    intro fuel hfuel
    rw [← hturn (Nat.le_trans (Nat.le_max_left _ _) hfuel)]
    exact h' _ (Nat.le_succ_of_le (Nat.le_trans (Nat.le_max_right _ _) hfuel))
  · rintro ⟨enough', h'⟩
    refine ⟨max enough enough' + 1, ?_⟩
    intro fuel hfuel
    obtain ⟨fuel, rfl⟩ := Nat.exists_eq_add_of_le' (Nat.le_of_add_left_le hfuel)
    have hle := Nat.le_of_add_le_add_right hfuel
    rw [hturn (Nat.le_trans (Nat.le_max_left _ _) hle)]
    exact h' _ (Nat.le_trans (Nat.le_max_right _ _) hle)

/-- A count that has not passed the maximum goes up by one, or the maximum is the largest number. -/
theorem toNat_next {retryCount : UInt64} (hleft : ¬ maxRetries < retryCount) :
    maxRetries = -1 ∨ (retryCount + 1).toNat = retryCount.toNat + 1 := by
  have hle := UInt64.le_iff_toNat_le.mp (UInt64.not_lt.mp hleft)
  have hlt := maxRetries.toNat_lt
  have hmax : maxRetries = -1 ↔ maxRetries.toNat = 2 ^ 64 - 1 := by
    rw [← UInt64.toNat_inj]
    rfl
  by_cases h : maxRetries = -1
  · exact .inl h
  · rw [hmax] at h
    rw [UInt64.toNat_add, UInt64.toNat_one, Nat.mod_eq_of_lt (by omega)]
    exact .inr rfl

theorem Allowed.not_past {retryCount : UInt64} {n : Nat} {result : Except E Unit}
    (h : Allowed maxRetries retryCount (n + 1) result) : ¬ maxRetries < retryCount := by
  rw [UInt64.not_lt, UInt64.le_iff_toNat_le]
  cases result with
  | ok u =>
      rcases h with rfl | h
      · exact Nat.le_of_lt_succ retryCount.toNat_lt
      · omega
  | error e =>
      obtain ⟨-, h⟩ := h
      omega

theorem allowed_succ_iff {retryCount : UInt64} {n : Nat} {result : Except E Unit} (hleft : ¬ maxRetries < retryCount) :
    Allowed maxRetries retryCount (n + 1) result ↔ Allowed maxRetries (retryCount + 1) n result := by
  rcases toNat_next hleft with hmax | hnext
  · cases result with
    | ok u => exact iff_of_true (.inl hmax) (.inl hmax)
    | error e => exact iff_of_false (fun h => h.1 hmax) fun h => h.1 hmax
  · have hsum : retryCount.toNat + (n + 1) = (retryCount + 1).toNat + n := by omega
    cases result with
    | ok u => rw [Allowed, Allowed, hsum]
    | error e => rw [Allowed, Allowed, hsum]

theorem le_next {retryCount : UInt64} (hleft : ¬ maxRetries < retryCount) :
    (retryCount + 1).toNat ≤ maxRetries.toNat + 1 := by
  rcases toNat_next hleft with rfl | hnext
  · exact Nat.le_of_lt (retryCount + 1).toNat_lt
  · rw [hnext]
    exact Nat.succ_le_succ (UInt64.le_iff_toNat_le.mp (UInt64.not_lt.mp hleft))

/-- What comes of the loop comes of an attempt, after as many failures as are allowed. -/
theorem retry_inv (hsteady : Steady attempt) {fuel : Nat} {retryCount : UInt64} {s s' : σ} {result : Except E Unit}
    (hcount : retryCount.toNat ≤ maxRetries.toNat + 1)
    (h : retry attempt maxRetries retryCount fuel s = some (result, s')) :
    ∃ n t, Fails attempt n s t ∧ Ends attempt t result s' ∧ Allowed maxRetries retryCount n result := by
  induction fuel generalizing retryCount s with
  | zero => cases h
  | succ fuel ih =>
      rw [retry] at h
      split at h
      · cases h
      · next t hattempt =>
          obtain ⟨rfl, rfl⟩ := Prod.mk.inj (Option.some.inj h)
          exact ⟨0, s, .zero s, hsteady _ _ _ _ hattempt, .inr hcount⟩
      · next e t hattempt =>
          have hends := hsteady _ _ _ _ hattempt
          split at h
          · next hlast =>
              obtain ⟨rfl, rfl⟩ := Prod.mk.inj (Option.some.inj h)
              have hlt := UInt64.lt_iff_toNat_lt.mp hlast
              refine ⟨0, s, .zero s, hends, ?_, by omega⟩
              rintro rfl
              have hmax : (-1 : UInt64).toNat = 2 ^ 64 - 1 := rfl
              have := retryCount.toNat_lt
              omega
          · next hleft =>
              obtain ⟨n, u, hfails, hresult, hallowed⟩ := ih (le_next hleft) h
              exact ⟨n + 1, u, .succ hends hfails, hresult, (allowed_succ_iff hleft).mpr hallowed⟩

theorem Fails.retry {n : Nat} {s t s' : σ} (hfails : Fails attempt n s t) {retryCount : UInt64} {result : Except E Unit}
    (hresult : Ends attempt t result s') (hallowed : Allowed maxRetries retryCount n result) :
    Ends (Continuous.retry attempt maxRetries retryCount) s result s' := by
  induction hfails generalizing retryCount with
  | zero s =>
      cases result with
      | ok u => exact retry_ok hresult
      | error e =>
          obtain ⟨-, hlast⟩ := hallowed
          exact retry_error hresult (UInt64.lt_iff_toNat_lt.mpr (by omega))
  | succ hends _ ih =>
      have hleft := hallowed.not_past
      exact (retry_again hends hleft).mpr (ih hresult ((allowed_succ_iff hleft).mp hallowed))

/-- The loop comes to what an attempt comes to, after as many failures as are allowed. -/
theorem retry_iff (hsteady : Steady attempt) {s s' : σ} {result : Except E Unit} :
    Ends (retry attempt maxRetries 0) s result s' ↔
      ∃ n t, Fails attempt n s t ∧ Ends attempt t result s' ∧ Allowed maxRetries 0 n result := by
  constructor
  · rintro ⟨enough, h⟩
    exact retry_inv hsteady (Nat.zero_le _) (h enough (Nat.le_refl _))
  · rintro ⟨n, t, hfails, hresult, hallowed⟩
    exact hfails.retry hresult hallowed

theorem steady_retry (hsteady : Steady attempt) : Steady (retry attempt maxRetries 0) := by
  intro fuel s result s' h
  exact (retry_iff hsteady).mpr (retry_inv hsteady (Nat.zero_le _) h)

theorem steady_waitForBlock (getBlock : σ → Except E Bool × σ) : Steady (waitForBlock getBlock) := by
  intro fuel
  induction fuel with
  | zero =>
      intro s result s' h
      cases h
  | succ fuel ih =>
      intro s result s' h
      have hturn {t : σ} {reply : Except E Bool} (hreply : getBlock s = (reply, t)) {enough : Nat}
          (hrest : ∀ more, enough ≤ more → waitForBlock getBlock (more + 1) s = some (result, s')) :
          Ends (waitForBlock getBlock) s result s' := by
        refine ⟨enough + 1, ?_⟩
        intro more hmore
        obtain ⟨more, rfl⟩ := Nat.exists_eq_add_of_le' (Nat.le_of_add_left_le hmore)
        exact hrest more (Nat.le_of_add_le_add_right hmore)
      rw [waitForBlock] at h
      split at h
      · next e t hreply =>
          refine @hturn t _ hreply 0 ?_
          intro more _
          rw [waitForBlock, hreply]
          exact h
      · next t hreply =>
          refine @hturn t _ hreply 0 ?_
          intro more _
          rw [waitForBlock, hreply]
          exact h
      · next t hreply =>
          obtain ⟨enough, hrest⟩ := ih t result s' h
          refine @hturn t _ hreply enough ?_
          intro more hmore
          rw [waitForBlock, hreply]
          exact hrest more hmore

theorem steady_const (execute : σ → Option (Except E Unit × σ)) : Steady fun _ => execute :=
  fun _ _ _ _ h => ⟨0, fun _ _ => h⟩

theorem ends_processBlock {getBlock : σ → Except E Bool × σ} {execute : σ → Option (Except E Unit × σ)} {s s' : σ}
    {result : Except E Unit} : Ends (processBlock getBlock execute maxRetries) s result s' ↔
      (∃ e, result = .error e ∧ Ends (retry (waitForBlock getBlock) maxRetries 0) s result s') ∨
        ∃ t, Ends (retry (waitForBlock getBlock) maxRetries 0) s (.ok ()) t ∧
          Ends (retry (fun _ => execute) maxRetries 0) t result s' := by
  constructor
  · rintro ⟨enough, h⟩
    have hrun := h enough (Nat.le_refl _)
    rw [processBlock] at hrun
    split at hrun
    · cases hrun
    · next e t hwait =>
        obtain ⟨rfl, rfl⟩ := Prod.mk.inj (Option.some.inj hrun)
        exact .inl ⟨e, rfl, steady_retry (steady_waitForBlock getBlock) _ _ _ _ hwait⟩
    · next t hwait =>
        exact .inr ⟨t, steady_retry (steady_waitForBlock getBlock) _ _ _ _ hwait,
          steady_retry (steady_const execute) _ _ _ _ hrun⟩
  · rintro (⟨e, rfl, enough, hwait⟩ | ⟨t, ⟨enough, hwait⟩, ⟨enough', hexecute⟩⟩)
    · refine ⟨enough, ?_⟩
      intro fuel hfuel
      rw [processBlock, hwait fuel hfuel]
    · refine ⟨max enough enough', ?_⟩
      intro fuel hfuel
      rw [processBlock, hwait fuel (Nat.le_trans (Nat.le_max_left _ _) hfuel)]
      exact hexecute fuel (Nat.le_trans (Nat.le_max_right _ _) hfuel)

/-- The processing of a block comes to an error when one of its two loops has failed twice more than
the maximum says, and to a success when both succeed before: every attempt but the last has failed. -/
theorem processBlock_iff {getBlock : σ → Except E Bool × σ} {execute : σ → Option (Except E Unit × σ)} {s s' : σ}
    {result : Except E Unit} : Ends (processBlock getBlock execute maxRetries) s result s' ↔
      (∃ e n t, result = .error e ∧ Fails (waitForBlock getBlock) n s t ∧
        Ends (waitForBlock getBlock) t (.error e) s' ∧ maxRetries ≠ -1 ∧ n = maxRetries.toNat + 1) ∨
      ∃ n t u m v, Fails (waitForBlock getBlock) n s t ∧ Ends (waitForBlock getBlock) t (.ok ()) u ∧
        (maxRetries = -1 ∨ n ≤ maxRetries.toNat + 1) ∧ Fails (fun _ => execute) m u v ∧
        Ends (fun _ => execute) v result s' ∧ Allowed maxRetries 0 m result := by
  rw [ends_processBlock]
  simp only [retry_iff (steady_waitForBlock getBlock), retry_iff (steady_const execute)]
  constructor
  · rintro (⟨e, rfl, n, t, hfails, hends, hmax, hn⟩ | ⟨u, ⟨n, t, hfails, hends, hallowed⟩, m, v, hrest⟩)
    · exact .inl ⟨e, n, t, rfl, hfails, hends, hmax, (Nat.zero_add n).symm.trans hn⟩
    · refine .inr ⟨n, t, u, m, v, hfails, hends, ?_, hrest⟩
      rw [Allowed, UInt64.toNat_zero, Nat.zero_add] at hallowed
      exact hallowed
  · rintro (⟨e, n, t, rfl, hfails, hends, hmax, hn⟩ | ⟨n, t, u, m, v, hfails, hends, hallowed, hrest⟩)
    · exact .inl ⟨e, rfl, n, t, hfails, hends, hmax, (Nat.zero_add n).trans hn⟩
    · refine .inr ⟨u, ⟨n, t, hfails, hends, ?_⟩, m, v, hrest⟩
      rw [Allowed, UInt64.toNat_zero, Nat.zero_add]
      exact hallowed

end ProcessBlock

end RethProcessor.Continuous
