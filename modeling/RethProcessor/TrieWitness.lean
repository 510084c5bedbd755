import RethProcessor.TrieTransition
import RethProcessor.TrieCommitment

/-! One trie in the witness of a transition: what honest proofs of some keys before it and of some
keys after it put into the store of its nodes, whether the batch goes through this trie or not. -/
namespace RethProcessor
open Paths Rlp Writes Calls

/-- Two tries that honest proofs can be given of, the first one over 32-byte keys, and without
collisions among what is hashed. -/
structure Provable (keccak : Bytes → B256) (t after : MptNode) (keys afterKeys : List Bytes) : Prop where
  full : FullTrieOver 64 t
  fullAfter : FullTrie after
  addressable : Addressable keccak t
  addressableAfter : Addressable keccak after
  untwinned : Untwinned keccak t
  untwinnedAfter : Untwinned keccak after
  injective : Set.InjOn keccak (transitionEncodings keccak t after keys (afterKeys.map .delete))

/-- The nodes of an honest proof, as they are parsed. -/
def shownNodes (keccak : Bytes → B256) (t : MptNode) (key : Bytes) : List MptNode :=
  (t :: t.hashedOnWay keccak (toNibs key)).map (MptNode.trunc keccak)

/-- A trie that stands in for the one before: it answers the keys, and a batch of updates of them
that leads to the trie after goes through on it, in any order. -/
structure Serves (keccak : Bytes → B256) (t after p : MptNode) (keys afterKeys : List Bytes) : Prop where
  pruning : Pruning keccak p t
  answers : ∀ key ∈ keys, p.get key = t.get key
  follows : ∀ {ops}, Transition t ops after → (∀ op ∈ ops, op.key ∈ keys ∧ op.key ∈ afterKeys) →
    ∀ order, order.Perm ops → ∃ replies p', p.performAll order = .ok (replies, p') ∧ Pruning keccak p' after

section Witness
variable {keccak : Bytes → B256} {t after : MptNode} {keys afterKeys : List Bytes} {stored : List MptNode}

/-- Where the nodes come from that the proofs of a trie give. -/
theorem mem_transitionNodes {ops : List Op} {nodes : List MptNode}
    (h : transitionNodes keccak t after keys ops = .ok nodes) {n : MptNode} : n ∈ nodes ↔
      (∃ key ∈ keys, ∃ ns, checkedProof keccak (honestProof keccak t key) = .ok ns ∧ n ∈ ns) ∨
      ∃ op ∈ ops, ∃ ns, addOrphanedLeafs keccak op.key (honestProof keccak after op.key) = .ok ns ∧ n ∈ ns := by
  obtain ⟨shown, hshown, h⟩ := bind_ok_inv h
  obtain ⟨orphans, horphans, h⟩ := bind_ok_inv h
  rw [← Except.ok.inj h, List.mem_append, mem_flatten_mapM hshown, mem_flatten_mapM horphans]

namespace Provable

theorem checkedProof (hp : Provable keccak t after keys afterKeys) (key : Bytes) :
    RethProcessor.checkedProof keccak (honestProof keccak t key) =
      .ok (shownNodes keccak t key) :=
  hp.full.full.checkedProof hp.addressable hp.untwinned key

/-- What the proof of a key after the transition ends in is read, and consists of decoded nodes. -/
theorem addOrphanedLeafs (hp : Provable keccak t after keys afterKeys) (key : Bytes) : ∃ nodes,
    RethProcessor.addOrphanedLeafs keccak key (honestProof keccak after key) = .ok nodes ∧
      ∀ n ∈ nodes, Decoded keccak n := by
  obtain ⟨o, ho⟩ := hp.fullAfter.answers (toNibs key)
  cases o with
  | some value =>
      refine ⟨[], hp.fullAfter.addOrphanedLeafs_stored hp.addressableAfter hp.untwinnedAfter ho, ?_⟩
      intro n hn
      cases hn
  | none =>
      have hlast := List.getLast?_eq_some_getLast (List.cons_ne_nil after (after.hashedOnWay keccak (toNibs key)))
      have hsub := subnode_of_mem_proof (List.getLast_mem (List.cons_ne_nil after (after.hashedOnWay keccak (toNibs key))))
      obtain ⟨nodes, hnodes, hdec⟩ := (@FullTrie.decoded keccak _ (hp.fullAfter.subnode hsub)).shortenNodePath
      refine ⟨nodes, ?_, hdec⟩
      rw [hp.fullAfter.addOrphanedLeafs_absent hp.addressableAfter hp.untwinnedAfter ho hlast, hnodes]
      rfl

theorem exists_nodes (hp : Provable keccak t after keys afterKeys) :
    ∃ nodes, transitionNodes keccak t after keys (afterKeys.map .delete) = .ok nodes := by
  obtain ⟨shown, hshown⟩ := mapM_exists (l := keys) fun key _ => ⟨_, hp.checkedProof key⟩
  obtain ⟨orphans, horphans⟩ := mapM_exists (l := afterKeys.map Op.delete) fun op _ =>
    (hp.addOrphanedLeafs op.key).imp fun _ h => h.1
  exact ⟨shown.flatten ++ orphans.flatten, by simp only [transitionNodes, hshown, horphans, bind, Except.bind]⟩

/-- A store of what the proofs give: of the nodes before, those shown, and decoded nodes only. -/
structure Stored (keccak : Bytes → B256) (t after : MptNode) (keys afterKeys : List Bytes) (stored : List MptNode) :
    Prop where
  decoded : ∀ n ∈ stored, Decoded keccak n
  shown : ∀ key ∈ keys, ∀ n ∈ shownNodes keccak t key, n ∈ stored
  orphans : ∀ key ∈ afterKeys, ∀ nodes,
    RethProcessor.addOrphanedLeafs keccak key (honestProof keccak after key) = .ok nodes → ∀ n ∈ nodes, n ∈ stored
  injective : Set.InjOn keccak (encodings keccak t ∪ {e | 32 ≤ e.length ∧ ∃ m ∈ stored, m.encode keccak = e})

/-- Nodes that come from the proofs, all of them, are such a store. -/
theorem stored_of_mem (hp : Provable keccak t after keys afterKeys)
    (hmem : ∀ n, n ∈ stored ↔
      (∃ key ∈ keys, n ∈ shownNodes keccak t key) ∨
      ∃ key ∈ afterKeys, ∃ nodes,
        RethProcessor.addOrphanedLeafs keccak key (honestProof keccak after key) = .ok nodes ∧ n ∈ nodes) :
    Stored keccak t after keys afterKeys stored := by
  obtain ⟨nodes, hnodes⟩ := hp.exists_nodes
  have hsame (n : MptNode) : n ∈ stored ↔ n ∈ nodes := by
    rw [hmem, mem_transitionNodes hnodes]
    constructor
    · rintro (⟨key, hkey, hn⟩ | ⟨key, hkey, ns, hns, hn⟩)
      · exact .inl ⟨key, hkey, _, hp.checkedProof key, hn⟩
      · exact .inr ⟨.delete key, List.mem_map_of_mem hkey, ns, hns, hn⟩
    · rintro (⟨key, hkey, ns, hns, hn⟩ | ⟨op, hop, ns, hns, hn⟩)
      · rw [hp.checkedProof key, Except.ok.injEq] at hns
        exact .inl ⟨key, hkey, hns ▸ hn⟩
      · obtain ⟨key, hkey, rfl⟩ := List.mem_map.mp hop
        exact .inr ⟨key, hkey, ns, hns, hn⟩
  refine ⟨?_, fun key hkey n hn => (hmem n).mpr (.inl ⟨key, hkey, hn⟩),
    fun key hkey ns hns n hn => (hmem n).mpr (.inr ⟨key, hkey, ns, hns, hn⟩), ?_⟩
  · intro n hn
    rcases (hmem n).mp hn with ⟨key, -, hn⟩ | ⟨key, -, ns, hns, hn⟩
    · obtain ⟨m, hm, rfl⟩ := List.mem_map.mp hn
      exact (hp.full.full.subnode (subnode_of_mem_proof hm)).decoded
    · obtain ⟨ns', hns', hdec⟩ := hp.addOrphanedLeafs key
      obtain rfl := Except.ok.inj (hns.symm.trans hns')
      exact hdec n hn
  · refine hp.injective.mono (Set.union_subset_union Set.subset_union_left ?_)
    rintro e ⟨hlen, m, hm, he⟩
    exact ⟨hlen, nodes, hnodes, m, (hsame m).mp hm, he⟩

/-- The batch of no updates. -/
theorem transition_nil (ht : FullTrieOver 64 t) : Transition t [] t where
  full := ht
  writes := List.forall_mem_nil _
  distinct := List.nodup_nil
  run := ⟨[], rfl⟩

/-- The root resolves in the store to a trie that stands in for the trie before. -/
theorem Stored.serves (hs : Stored keccak t after keys afterKeys stored)
    (hp : Provable keccak t after keys afterKeys) :
    ∃ p, Resolves (storeOf keccak stored) (t.trunc keccak) p ∧ Serves keccak t after p keys afterKeys := by
  have hfaith := hp.full.full.faithful hp.addressable hs.decoded hs.injective
  obtain ⟨p, hres, hrev⟩ := hp.full.full.resolves hfaith
  have hshown {key : Bytes} {ns : List MptNode} (hkey : key ∈ keys)
      (hns : RethProcessor.checkedProof keccak (honestProof keccak t key) = .ok ns) : ∀ n ∈ ns, n ∈ stored := by
    rw [hp.checkedProof key, Except.ok.injEq] at hns
    exact hns ▸ hs.shown key hkey
  refine ⟨p, hres, hrev.pruning, ?_, ?_⟩
  · intro key hkey
    obtain ⟨nodes, hnodes, -, hsuff⟩ := (transition_nil hp.full).nodes hp.addressable hp.addressable hp.untwinned
      hp.untwinned keys
    have hall : ∀ n ∈ nodes, n ∈ stored := by
      intro n hn
      rcases (mem_transitionNodes hnodes).mp hn with ⟨key, hkey, ns, hns, hn⟩ | ⟨op, hop, -⟩
      · exact hshown hkey hns n hn
      · cases hop
    exact (hsuff stored hall).get_eq hrev (hrev.pruning.canonicalTrie hp.full.full.canonical) hkey
  · intro ops h hkeys order horder
    obtain ⟨nodes, hnodes, -, hsuff⟩ := h.nodes hp.addressable hp.addressableAfter hp.untwinned hp.untwinnedAfter keys
    have hall : ∀ n ∈ nodes, n ∈ stored := by
      intro n hn
      rcases (mem_transitionNodes hnodes).mp hn with ⟨key, hkey, ns, hns, hn⟩ | ⟨op, hop, ns, hns, hn⟩
      · exact hshown hkey hns n hn
      · exact hs.orphans op.key (hkeys op hop).2 ns hns n hn
    exact h.follows (hsuff stored hall) (fun op hop => (hkeys op hop).1) hrev horder

end Provable

end Witness

end RethProcessor
