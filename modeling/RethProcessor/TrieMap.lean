import RethProcessor.TrieDelete
import RethProcessor.TrieEncode

/-! A trie over a prefix-free set of keys is a finite map: runs of insertions and
deletions against the last write of each key. -/
namespace RethProcessor
open Paths

/-- An update of a trie, over byte-string keys. -/
inductive Op where
  | insert (key value : Bytes)
  | delete (key : Bytes)
  deriving DecidableEq

namespace Op

def key : Op → Bytes
  | .insert key _ => key
  | .delete key => key

/-- What the key holds afterwards. -/
def value : Op → Option Bytes
  | .insert _ value => some value
  | .delete _ => none

/-- An update of one of the keys, with a value that `insert` accepts. -/
def Over (K : Set Bytes) (op : Op) : Prop := op.key ∈ K ∧ op.value ≠ some []

/-- The map after an update. -/
def apply (m : Bytes → Option Bytes) (op : Op) : Bytes → Option Bytes :=
  Function.update m op.key op.value

/-- Whether an update changes the map. -/
def changes (m : Bytes → Option Bytes) (op : Op) : Bool := decide (m op.key ≠ op.value)

end Op

def MptNode.perform (n : MptNode) : Op → Mutation
  | .insert key value => n.insert key value
  | .delete key => n.delete key

theorem MptNode.insert_of_ne {n : MptNode} {key value : Bytes} (h : value ≠ []) :
    n.insert key value = n.insertInternal (toNibs key) value := by
  simp [MptNode.insert, h]

/-- A run: the replies of the updates and the trie they leave, or the first failure. -/
def MptNode.performAll : MptNode → List Op → Except Failure (List Bool × MptNode)
  | n, [] => .ok ([], n)
  | n, op :: ops =>
      match n.perform op with
      | (.error f, _) => .error f
      | (.ok reply, n) =>
          match n.performAll ops with
          | .error f => .error f
          | .ok (replies, n) => .ok (reply :: replies, n)

/-- The value of the last insertion of the key, unless a deletion of the key follows it. -/
def lastWrite (ops : List Op) (key : Bytes) : Option Bytes :=
  (ops.reverse.find? fun op => op.key = key).bind Op.value

/-- Which updates of a run change the map. -/
def changesOf : (Bytes → Option Bytes) → List Op → List Bool
  | _, [] => []
  | m, op :: ops => op.changes m :: changesOf (op.apply m) ops

theorem foldl_apply (ops : List Op) (m : Bytes → Option Bytes) (key : Bytes) :
    ops.foldl Op.apply m key =
      match ops.reverse.find? fun op => op.key = key with
      | some op => op.value
      | none => m key := by
  induction ops generalizing m with
  | nil => rfl
  | cons op ops ih =>
      rw [List.foldl_cons, ih, List.reverse_cons, List.find?_append]
      cases hfind : ops.reverse.find? fun op => op.key = key with
      | some last => rfl
      | none =>
          by_cases hk : op.key = key
          · subst hk
            simp [Op.apply]
          · simp [Op.apply, hk, Function.update_of_ne (Ne.symm hk)]

theorem foldl_apply_empty (ops : List Op) : ops.foldl Op.apply (fun _ => none) = lastWrite ops := by
  funext key
  rw [foldl_apply, lastWrite]
  cases ops.reverse.find? fun op => op.key = key <;> rfl

/-- A canonical trie that says what the map says, and holds keys of the set only. -/
structure Holds (K : Set Bytes) (n : MptNode) (m : Bytes → Option Bytes) : Prop where
  canonical : CanonicalTrie n
  get_eq : ∀ key, n.get key = .ok (m key)
  keys : ∀ ns, Live n ns → ∃ key ∈ K, ns = toNibs key

theorem holds_null (K : Set Bytes) : Holds K .null fun _ => none :=
  ⟨.inl rfl, fun _ => rfl, fun _ h => absurd rfl h⟩

section
variable {K : Set Bytes} {n : MptNode} {m : Bytes → Option Bytes}

theorem Holds.admits (h : Holds K n m) (hK : PrefixFree K) {key : Bytes} (hkey : key ∈ K) :
    Admits n (toNibs key) := by
  intro ns hlive hclash
  obtain ⟨other, hother, rfl⟩ := h.keys ns hlive
  simp only [Clash, toNibs_prefix] at hclash
  exact .inl (congrArg toNibs (hK.eq_of_clash hother hkey hclash))

theorem Holds.overwrite (h : Holds K n m) {key : Bytes} (hkey : key ∈ K) {o : Option Bytes}
    {n' : MptNode} (hn' : CanonicalTrie n') (hview : Overwrites n n' (toNibs key) (o)) :
    Holds K n' (Function.update m key o) := by
  have hget (ns : List Nibble) : n'.getInternal ns =
      Function.update n.getInternal (toNibs key) (.ok o) ns := congrFun hview ns
  refine ⟨hn', ?_, ?_⟩
  · intro other
    rw [MptNode.get, hget]
    by_cases hk : other = key
    · simp [hk]
    · rw [Function.update_of_ne hk, Function.update_of_ne (fun heq => hk (toNibs_inj.mp heq))]
      exact h.get_eq other
  · intro ns hlive
    by_cases hk : ns = toNibs key
    · exact ⟨key, hkey, hk⟩
    · rw [Live, hget, Function.update_of_ne hk] at hlive
      exact h.keys ns hlive

/-- Every update succeeds, replies whether it changed the map, and follows it. -/
theorem Holds.perform (h : Holds K n m) (hK : PrefixFree K) {op : Op} (hop : op.Over K) :
    ∃ n', n.perform op = (.ok (op.changes m), n') ∧ Holds K n' (op.apply m) := by
  obtain ⟨hkey, hvalue⟩ := hop
  have hadm := h.admits hK hkey
  have hget := h.get_eq op.key
  cases op with
  | insert key value =>
      obtain ⟨n', hn', hcan, hview⟩ := h.canonical.insertInternal_ok hadm hget value
      have hne : value ≠ [] := by
        intro h
        exact hvalue (congrArg some h)
      refine ⟨n', ?_, h.overwrite hkey (.inr hcan) hview⟩
      rw [MptNode.perform, MptNode.insert_of_ne hne]
      exact hn'
  | delete key =>
      cases hm : m key with
      | none =>
          have habsent := h.canonical.deleteInternal_absent hadm (hget.trans (congrArg _ hm))
          refine ⟨n, habsent.trans ?_, ?_⟩
          · simp [Op.changes, Op.key, Op.value, hm]
          · have hsame : Op.apply m (.delete key) = m := by
              rw [Op.apply, Op.key, Op.value, ← hm, Function.update_eq_self]
            rwa [hsame]
      | some value =>
          obtain ⟨n', hn', hcan, hview⟩ := h.canonical.deleteInternal_ok (hget.trans (congrArg _ hm))
          refine ⟨n', hn'.trans ?_, h.overwrite hkey hcan hview⟩
          simp [Op.changes, Op.key, Op.value, hm]

theorem Holds.performAll (h : Holds K n m) (hK : PrefixFree K) {ops : List Op}
    (hops : ∀ op ∈ ops, op.Over K) :
    ∃ n', n.performAll ops = .ok (changesOf m ops, n') ∧ Holds K n' (ops.foldl Op.apply m) := by
  induction ops generalizing n m with
  | nil => exact ⟨n, rfl, h⟩
  | cons op ops ih =>
      obtain ⟨n₁, h₁, hn₁⟩ := h.perform hK (hops op (by simp))
      obtain ⟨n₂, h₂, hn₂⟩ := ih hn₁ fun x hx => hops x (List.mem_cons_of_mem _ hx)
      refine ⟨n₂, ?_, hn₂⟩
      simp only [MptNode.performAll, h₁, h₂, changesOf]

theorem Holds.full (h : Holds K n m) : FullTrie n := by
  apply h.canonical.full
  intro ns
  by_cases hlive : Live n ns
  · obtain ⟨key, -, rfl⟩ := h.keys ns hlive
    exact ⟨_, h.get_eq key⟩
  · exact ⟨none, not_not.mp hlive⟩

/-- The map determines the trie. -/
theorem Holds.unique {n' : MptNode} {m' : Bytes → Option Bytes} (h : Holds K n m)
    (h' : Holds K n' m') (hm : ∀ key ∈ K, m key = m' key) : n = n' := by
  apply h.canonical.ext_view h'.canonical
  intro ns
  by_cases hns : ∃ key ∈ K, ns = toNibs key
  · obtain ⟨key, hkey, rfl⟩ := hns
    exact (h.get_eq key).trans ((congrArg _ (hm key hkey)).trans (h'.get_eq key).symm)
  · have hdead {t : MptNode} {f : Bytes → Option Bytes} (ht : Holds K t f) :
        t.getInternal ns = .ok none := by
      by_contra hlive
      exact hns (ht.keys ns hlive)
    rw [hdead h, hdead h']

end

/-- From the empty trie, no update over a prefix-free set of keys fails, each replies
whether it changed the value of its key, and lookups return the last write. -/
theorem performAll_lastWrite {K : Set Bytes} (hK : PrefixFree K) {ops : List Op}
    (hops : ∀ op ∈ ops, op.Over K) :
    ∃ n, MptNode.null.performAll ops = .ok (changesOf (fun _ => none) ops, n) ∧
      ∀ key ∈ K, n.get key = .ok (lastWrite ops key) := by
  obtain ⟨n, hn, h⟩ := (holds_null K).performAll hK hops
  rw [foldl_apply_empty] at h
  exact ⟨n, hn, fun key _ => h.get_eq key⟩

theorem prefixFree_length (n : Nat) : PrefixFree {key : Bytes | key.length = n} :=
  fun _ ha _ hb h => h.eq_of_length (ha.trans hb.symm)

theorem performAll_lastWrite_three :
    ∃ n, MptNode.null.performAll [.insert [0x64] [1], .insert [0x75] [2], .insert [0x64] [1],
        .delete [0x64]] = .ok ([true, true, false, true], n) ∧
      ∀ key ∈ {key : Bytes | key.length = 1}, n.get key = .ok (lastWrite
        [.insert [0x64] [1], .insert [0x75] [2], .insert [0x64] [1], .delete [0x64]] key) :=
  performAll_lastWrite (prefixFree_length 1) (by simp [Op.Over, Op.key, Op.value])

/-- Whatever the history, the trie reached is canonical and without digests, and its
contents alone determine it and its hash. -/
theorem performAll_canonical {K : Set Bytes} (hK : PrefixFree K) {ops ops' : List Op}
    (hops : ∀ op ∈ ops, op.Over K) (hops' : ∀ op ∈ ops', op.Over K) :
    ∃ n n', MptNode.null.performAll ops = .ok (changesOf (fun _ => none) ops, n) ∧
      MptNode.null.performAll ops' = .ok (changesOf (fun _ => none) ops', n') ∧
      FullTrie n ∧ FullTrie n' ∧
      ((∀ key ∈ K, n.get key = n'.get key) → n = n' ∧ ∀ keccak, n.hash keccak = n'.hash keccak) := by
  obtain ⟨n, hn, h⟩ := (holds_null K).performAll hK hops
  obtain ⟨n', hn', h'⟩ := (holds_null K).performAll hK hops'
  refine ⟨n, n', hn, hn', h.full, h'.full, ?_⟩
  intro hget
  have heq : n = n' := h.unique h' fun key hkey => by
    have := hget key hkey
    rw [h.get_eq, h'.get_eq] at this
    exact Except.ok.inj this
  exact ⟨heq, fun keccak => by rw [heq]⟩

theorem performAll_canonical_two :
    ∃ n n', MptNode.null.performAll [.insert [0x64] [1], .insert [0x65] [2]] =
        .ok ([true, true], n) ∧
      MptNode.null.performAll [.insert [0x65] [3], .insert [0x64] [1], .insert [0x65] [2]] =
        .ok ([true, true, true], n') ∧
      FullTrie n ∧ FullTrie n' ∧ ((∀ key ∈ {key : Bytes | key.length = 1}, n.get key = n'.get key) →
        n = n' ∧ ∀ keccak, n.hash keccak = n'.hash keccak) :=
  performAll_canonical (prefixFree_length 1) (by simp [Op.Over, Op.key, Op.value])
    (by simp [Op.Over, Op.key, Op.value])

end RethProcessor
