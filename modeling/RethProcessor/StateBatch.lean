import RethProcessor.TrieTransition
import RethProcessor.TrieCommitment
import RethProcessor.StateOrder

/-! The update of a state as batches of updates of its tries: one for the storage of each account
that is written, and one for the state trie, with the leaves that the storages lead to. -/
namespace RethProcessor
open Paths Writes Calls

/-- The update of a key that leaves it with the value. -/
def opOf (key : B256) : Option Bytes → Op
  | some value => .insert key.bytes value
  | none => .delete key.bytes

/-- The update of a slot of a diff. -/
def slotOp (slot : Σ _ : B256, U256) : Op := opOf slot.1 (slotValue slot.2)

section Ops
variable {key : B256} {value : Option Bytes} {n m : MptNode}

@[simp] theorem opOf_key : (opOf key value).key = key.bytes := by
  cases value <;> rfl

@[simp] theorem opOf_value : (opOf key value).value = value := by
  cases value <;> rfl

theorem perform_opOf (h : value ≠ some []) : n.perform (opOf key value) = n.write key.nibs value := by
  cases value with
  | none => rfl
  | some v => exact MptNode.insert_of_ne fun hv => h (congrArg some hv)

theorem slotValue_ne_nil (value : U256) : slotValue value ≠ some [] := by
  unfold slotValue
  split
  · intro h
    cases h
  · intro h
    have hlen := congrArg List.length (Option.some.inj h)
    rw [encodeUint, Rlp.encodeString_length] at hlen
    exact absurd hlen (Nat.ne_of_gt (stringLength_pos _))

/-- A run of updates, one update at a time. -/
theorem performAll_cons_iff {op : Op} {ops : List Op} : (∃ replies, n.performAll (op :: ops) = .ok (replies, m)) ↔
    ∃ k, unwrap (n.perform op) = some k ∧ ∃ replies, k.performAll ops = .ok (replies, m) := by
  rw [MptNode.performAll]
  obtain ⟨result, k⟩ := n.perform op
  cases result with
  | error f =>
      constructor
      · rintro ⟨replies, h⟩
        cases h
      · rintro ⟨k', h, -⟩
        cases h
  | ok reply =>
      simp only [unwrap, Option.some.injEq, exists_eq_left']
      cases k.performAll ops with
      | error f =>
          constructor
          · rintro ⟨replies, h⟩
            cases h
          · rintro ⟨replies, h⟩
            cases h
      | ok run =>
          obtain ⟨replies, k'⟩ := run
          simp only [Except.ok.injEq, Prod.mk.injEq, exists_eq_left']

/-- The loop over the slots of a diff is a run of updates. -/
theorem foldlM_writeSlot_iff {slots : List (Σ _ : B256, U256)} :
    slots.foldlM writeSlot n = some m ↔ ∃ replies, n.performAll (slots.map slotOp) = .ok (replies, m) := by
  induction slots generalizing n with
  | nil => simp [MptNode.performAll]
  | cons slot slots ih =>
      rw [List.map_cons, performAll_cons_iff, List.foldlM_cons, writeSlot_eq]
      simp only [slotOp, perform_opOf (slotValue_ne_nil slot.2), bind, Option.bind_eq_some_iff, ih]

/-- The storage trie of an account after a diff that does not wipe it. -/
theorem updateStorage_iff {diff : HashedStorage} (hw : diff.wiped = false) :
    updateStorage n diff = some m ↔ ∃ replies, n.performAll (diff.storage.entries.map slotOp) = .ok (replies, m) := by
  rw [updateStorage, hw, ← foldlM_writeSlot_iff]
  rfl

end Ops

namespace EthereumState

/-- The updates of the state trie, for what is to stand at each address. -/
def accountOps (leaf : B256 → Option Bytes) (entries : List (Σ _ : B256, Option Account)) : List Op :=
  entries.map fun entry => opOf entry.1 (leaf entry.1)

section Update
variable {keccak : Bytes → B256} {codec : AccountCodec} {post : HashedPostState} {s : EthereumState}
  {leaf : B256 → Option Bytes}

/-- The loop over the accounts is a run of updates of the state trie, once it is known what the
storages lead to. -/
theorem foldlM_updateAccount_iff {entries : List (Σ _ : B256, Option Account)}
    (hleaf : ∀ entry ∈ entries, leaf entry.1 ≠ some []) (hn : entries.NodupKeys)
    (hpatch : ∀ entry ∈ entries, ∃ q, patchOf keccak codec (post.storageOf entry.1) (s.storageTrie entry.1) entry.2 =
      some q ∧ q.value = leaf entry.1) {trie : MptNode} :
    (∃ s', entries.foldlM (updateAccount keccak codec post) s = some s' ∧ s'.stateTrie = trie) ↔
      ∃ replies, s.stateTrie.performAll (accountOps leaf entries) = .ok (replies, trie) := by
  induction entries generalizing s with
  | nil => simp [accountOps, MptNode.performAll]
  | cons entry entries ih =>
      obtain ⟨q, hq, hvalue⟩ := hpatch entry List.mem_cons_self
      rw [List.nodupKeys_cons] at hn
      have hrest (k : MptNode) : ∀ e ∈ entries, ∃ q', patchOf keccak codec (post.storageOf e.1)
          (storageTrie ⟨k, q.apply entry.1 s.storageTries⟩ e.1) e.2 = some q' ∧ q'.value = leaf e.1 := by
        intro e he
        have hne : e.1 ≠ entry.1 := by
          intro heq
          exact hn.1 (heq ▸ List.mem_keys_of_mem he)
        rw [storageTrie_apply_of_ne hne]
        exact hpatch e (List.mem_cons_of_mem _ he)
      have hperform : s.stateTrie.perform (opOf entry.1 (leaf entry.1)) = s.stateTrie.write entry.1.nibs q.value := by
        rw [hvalue, perform_opOf (hleaf entry List.mem_cons_self)]
      rw [accountOps, List.map_cons, performAll_cons_iff, hperform, List.foldlM_cons, updateAccount_eq, hq,
        Option.bind_some]
      cases unwrap (s.stateTrie.write entry.1.nibs q.value) with
      | none =>
          constructor
          · rintro ⟨s', h, -⟩
            cases h
          · rintro ⟨k, h, -⟩
            cases h
      | some k =>
          simp only [Option.map_some, Option.some.injEq, exists_eq_left']
          exact ih (fun e he => hleaf e (List.mem_cons_of_mem _ he)) hn.2 (hrest k)

theorem accountOps_keys (leaf : B256 → Option Bytes) (entries : List (Σ _ : B256, Option Account)) :
    (accountOps leaf entries).map Op.key = entries.keys.map B256.bytes := by
  rw [accountOps, List.map_map, List.keys, List.map_map]
  exact List.map_congr_left fun entry _ => opOf_key

theorem keys_nodup {ν : Type} {entries : List (Σ _ : B256, ν)} (h : entries.NodupKeys) :
    (entries.keys.map B256.bytes).Nodup :=
  List.Nodup.map (fun _ _ hab => B256.ext hab) h

/-- The batch of the state trie. -/
theorem transition_accounts {f' : EthereumState} (hf : FullTrieOver 64 s.stateTrie)
    {entries : List (Σ _ : B256, Option Account)} (hleaf : ∀ entry ∈ entries, leaf entry.1 ≠ some [])
    (hn : entries.NodupKeys)
    (hpatch : ∀ entry ∈ entries, ∃ q, patchOf keccak codec (post.storageOf entry.1) (s.storageTrie entry.1) entry.2 =
      some q ∧ q.value = leaf entry.1)
    (hu : entries.foldlM (updateAccount keccak codec post) s = some f') :
    Transition s.stateTrie (accountOps leaf entries) f'.stateTrie where
  full := hf
  writes := by
    intro op hop
    obtain ⟨entry, hentry, rfl⟩ := List.mem_map.mp hop
    rw [opOf_key, opOf_value]
    exact ⟨entry.1.length_eq, hleaf entry hentry⟩
  distinct := by
    rw [accountOps_keys]
    exact keys_nodup hn
  run := (foldlM_updateAccount_iff hleaf hn hpatch).mp ⟨f', hu, rfl⟩

end Update

/-- The batch of a storage that is not wiped. -/
theorem transition_slots {t t' : MptNode} (ht : FullTrieOver 64 t) {diff : HashedStorage} (hw : diff.wiped = false)
    (hu : updateStorage t diff = some t') : Transition t (diff.storage.entries.map slotOp) t' where
  full := ht
  writes := by
    intro op hop
    obtain ⟨slot, -, rfl⟩ := List.mem_map.mp hop
    rw [slotOp, opOf_key, opOf_value]
    exact ⟨slot.1.length_eq, slotValue_ne_nil slot.2⟩
  distinct := by
    have hkeys : (diff.storage.entries.map slotOp).map Op.key = diff.storage.entries.keys.map B256.bytes := by
      rw [List.map_map, List.keys, List.map_map]
      exact List.map_congr_left fun slot _ => opOf_key
    rw [hkeys]
    exact keys_nodup diff.storage.nodupKeys
  run := (updateStorage_iff hw).mp hu

end EthereumState

end RethProcessor
