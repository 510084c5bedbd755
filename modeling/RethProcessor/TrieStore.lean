import RethProcessor.TrieProof
import RethProcessor.Writes

/-! Stores of decoded nodes, each under its own reference: which nodes shortening a path
yields, and that without collisions a store has nothing else in the place of a node. -/
namespace RethProcessor
open Paths Rlp Writes

variable {keccak : Bytes → B256}

theorem shortenNodePath_leaf (ns : List Nibble) (value : Bytes) :
    shortenNodePath (.leaf (toEncodedPath ns true) value) =
      .ok ((List.range (ns.length + 1)).map fun i => .leaf (toEncodedPath (ns.drop i) true) value) := by
  simp only [shortenNodePath, MptNode.nibs, prefixNibs_toEncodedPath]

theorem shortenNodePath_extension (ns : List Nibble) (child : MptNode) :
    shortenNodePath (.extension (toEncodedPath ns false) child) =
      .ok ((List.range (ns.length + 1)).map fun i => .extension (toEncodedPath (ns.drop i) false) child) := by
  simp only [shortenNodePath, MptNode.nibs, prefixNibs_toEncodedPath]

theorem Decoded.shortenNodePath {n : MptNode} (hn : Decoded keccak n) :
    ∃ nodes, RethProcessor.shortenNodePath n = .ok nodes ∧ ∀ m ∈ nodes, Decoded keccak m := by
  obtain ⟨hwell, htrunc, hd⟩ := hn
  cases hwell with
  | null | branch | digest => exact ⟨[], rfl, by simp⟩
  | leaf ns value =>
      refine ⟨_, shortenNodePath_leaf ns value, ?_⟩
      intro m hm
      obtain ⟨i, -, rfl⟩ := List.mem_map.mp hm
      exact ⟨.leaf _ value, rfl, rfl⟩
  | @extension ns child hc =>
      refine ⟨_, shortenNodePath_extension ns child, ?_⟩
      intro m hm
      obtain ⟨i, -, rfl⟩ := List.mem_map.mp hm
      simp only [MptNode.trunc, MptNode.extension.injEq, true_and] at htrunc
      exact ⟨.extension _ hc, by simp only [MptNode.trunc, htrunc], rfl⟩

/-- A node lies among the shortened versions of every node that it can be cut out of. -/
theorem mem_shortenNodePath {m : MptNode} (hm : Canonical m) (hbr : m.isBranch = false)
    (hd : m.isDigest = false) (below : List Nibble) :
    ∃ nodes, shortenNodePath ((m.prepend below).trunc keccak) = .ok nodes ∧ m.trunc keccak ∈ nodes := by
  have hin (ns : List Nibble) : below.length ∈ List.range ((below ++ ns).length + 1) := by
    rw [List.mem_range, List.length_append]
    omega
  cases hm with
  | branch => cases hbr
  | digest => cases hd
  | leaf ns value =>
      simp only [MptNode.prepend, pathNibs_toEncodedPath, MptNode.trunc, shortenNodePath_leaf]
      exact ⟨_, rfl, List.mem_map.mpr ⟨below.length, hin ns, by rw [List.drop_left]⟩⟩
  | @extension ns child =>
      simp only [MptNode.prepend, pathNibs_toEncodedPath, MptNode.trunc, shortenNodePath_extension]
      exact ⟨_, rfl, List.mem_map.mpr ⟨below.length, hin ns, by rw [List.drop_left]⟩⟩

/-- A node under a longer path is not encoded shorter. -/
theorem encode_length_prepend {m : MptNode} (hm : Canonical m) (hbr : m.isBranch = false)
    (hd : m.isDigest = false) (below : List Nibble) :
    (m.encode keccak).length ≤ ((m.prepend below).encode keccak).length := by
  cases hm with
  | branch => cases hbr
  | digest => cases hd
  | leaf ns value =>
      have hpath := stringLength_toEncodedPath_mono below ns true
      have hlol := lengthOfLength_mono (Nat.add_le_add_right hpath (stringLength value))
      simp only [MptNode.prepend, pathNibs_toEncodedPath, encode_length, MptNode.length,
        MptNode.payloadLength]
      omega
  | @extension ns child =>
      have hpath := stringLength_toEncodedPath_mono below ns false
      have hlol := lengthOfLength_mono (Nat.add_le_add_right hpath (child.reference keccak).length)
      simp only [MptNode.prepend, pathNibs_toEncodedPath, encode_length, MptNode.length,
        MptNode.payloadLength]
      omega

/-- Where a node is referenced by digest, so it is under a longer path. -/
theorem reference_prepend {m : MptNode} (hm : Canonical m) (hbr : m.isBranch = false)
    (hd : m.isDigest = false) {d : B256} (href : m.reference keccak = .digest d) (below : List Nibble) :
    ∃ e, (m.prepend below).reference keccak = .digest e := by
  have hlen := @encode_length_prepend keccak m hm hbr hd below
  have hlisted : m.isListed ∧ (m.prepend below).isListed := by
    cases hm with
    | branch => cases hbr
    | digest => cases hd
    | leaf | extension => exact ⟨rfl, rfl⟩
  rw [reference_of_isListed hlisted.1] at href
  rw [reference_of_isListed hlisted.2]
  split at href
  · cases href
  · exact ⟨_, if_neg (by omega)⟩

section Store
variable {nodes : List MptNode}

theorem storeOf_eq : storeOf keccak nodes =
    overlay (fun _ => none) (nodes.map fun n => (n.reference keccak, some n)) := by
  rw [storeOf, overlay, List.foldl_map]

theorem mem_references {r : MptNodeReference} :
    r ∈ (nodes.map fun n => (n.reference keccak, some n)).map Prod.fst ↔
      ∃ n ∈ nodes, n.reference keccak = r := by
  simp

theorem storeOf_some {r : MptNodeReference} {n : MptNode} (h : storeOf keccak nodes r = some n) :
    n ∈ nodes ∧ n.reference keccak = r := by
  rw [storeOf_eq] at h
  by_cases hr : r ∈ (nodes.map fun n => (n.reference keccak, some n)).map Prod.fst
  · obtain ⟨w, hw, hwr, heq⟩ := exists_write (f := fun _ => (none : Option MptNode)) hr
    obtain ⟨m, hm, rfl⟩ := List.mem_map.mp hw
    rw [heq, Option.some.injEq] at h
    exact h ▸ ⟨hm, hwr⟩
  · rw [overlay_of_not_mem hr] at h
    cases h

theorem storeOf_ne_none {n : MptNode} (h : n ∈ nodes) :
    storeOf keccak nodes (n.reference keccak) ≠ none := by
  have hr := (@mem_references keccak nodes _).mpr ⟨n, h, rfl⟩
  obtain ⟨w, hw, -, heq⟩ := exists_write (f := fun _ => (none : Option MptNode)) hr
  obtain ⟨m, -, rfl⟩ := List.mem_map.mp hw
  rw [storeOf_eq, heq]
  simp

/-- Without collisions, a store of decoded nodes is faithful to a full trie. -/
theorem FullTrie.faithful {t : MptNode} (ht : FullTrie t) (haddr : Addressable keccak t)
    (hnodes : ∀ n ∈ nodes, Decoded keccak n)
    (hinj : Set.InjOn keccak (encodings keccak t ∪
      {e | 32 ≤ e.length ∧ ∃ m ∈ nodes, m.encode keccak = e})) :
    Faithful keccak (storeOf keccak nodes) t := by
  intro m d n hm href hn
  obtain ⟨hin, hnref⟩ := storeOf_some hn
  have hdec := hnodes n hin
  rcases ht.subnode hm with rfl | hfull
  · cases href
  · have hl := hfull.isListed
    rw [reference_of_isListed hl] at href
    split at href
    · cases href
    · rw [MptNodeReference.digest.injEq] at href
      have hnl : n.isListed := by
        cases n with
        | null => cases hnref
        | digest e => cases hdec.not_digest
        | branch | leaf | extension => rfl
      rw [reference_of_isListed hnl] at hnref
      split at hnref
      · cases hnref
      · next hge =>
          rw [MptNodeReference.digest.injEq] at hnref
          have henc := hinj (.inr ⟨Nat.le_of_not_lt hge, n, hin, rfl⟩) (.inl ⟨m, hm, hl, rfl⟩)
            (hnref.trans href.symm)
          exact hdec.eq_of_encode hfull.canonical.wellEncoded (haddr _ ⟨m, hm, hl, rfl⟩) henc

theorem FullTrie.resolves {t : MptNode} {store : NodeStore} (ht : FullTrie t)
    (hstore : Faithful keccak store t) :
    ∃ p, Resolves store (t.trunc keccak) p ∧ Revealed keccak store p t := by
  rcases ht with rfl | ht
  · refine ⟨.null, ⟨1, ?_⟩, .null⟩
    intro fuel hf
    obtain ⟨fuel, rfl⟩ : ∃ f, fuel = f + 1 := ⟨fuel - 1, by omega⟩
    rfl
  · exact ht.resolves hstore

end Store

end RethProcessor
