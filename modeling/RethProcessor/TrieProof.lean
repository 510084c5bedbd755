import RethProcessor.TrieResolve

/-! Honest proofs: which nodes they show, how they end, and what their nodes decode to. -/
namespace RethProcessor
open Paths Rlp Calls

variable {keccak : Bytes → B256}

theorem hashedSelf_digest {n : MptNode} {d : B256} (h : n.reference keccak = .digest d) :
    hashedSelf keccak n = [n] := by
  simp only [hashedSelf, h]

theorem hashedOnWay_branch_cons {children : Nibble → Option MptNode} {i : Nibble} {c : MptNode}
    (hc : children i = some c) (tail : List Nibble) :
    (MptNode.branch children).hashedOnWay keccak (i :: tail) =
      hashedSelf keccak c ++ c.hashedOnWay keccak tail := by
  simp only [MptNode.hashedOnWay, hc, hashedFrom]

theorem hashedOnWay_extension_append {path : Bytes} {ns : List Nibble} (hp : prefixNibs path = .ok ns)
    (c : MptNode) (tail : List Nibble) :
    (MptNode.extension path c).hashedOnWay keccak (ns ++ tail) =
      hashedSelf keccak c ++ c.hashedOnWay keccak tail := by
  simp only [MptNode.hashedOnWay, hp, isPrefixOf?_append]

theorem hashedOnWay_extension_of_not {ns key : List Nibble} (h : ¬ ns <+: key) (c : MptNode) :
    (MptNode.extension (toEncodedPath ns false) c).hashedOnWay keccak key = [] := by
  simp only [MptNode.hashedOnWay, prefixNibs_toEncodedPath, isPrefixOf?_eq_none h]

theorem mem_hashedSelf_append {m c : MptNode} {d : B256} (hm : m.reference keccak = .digest d)
    {l : List MptNode} (h : m ∈ c :: l) : m ∈ hashedSelf keccak c ++ l := by
  rcases List.mem_cons.mp h with rfl | h
  · simp [hashedSelf_digest hm]
  · exact List.mem_append_right _ h

theorem getLast?_hashedSelf_append {n m c : MptNode} {d : B256} (hm : m.reference keccak = .digest d)
    {l : List MptNode} (h : (c :: l).getLast? = some m) :
    (n :: (hashedSelf keccak c ++ l)).getLast? = some m := by
  cases l with
  | nil =>
      obtain rfl : c = m := by simpa using h
      simp [hashedSelf_digest hm]
  | cons a l =>
      rw [List.getLast?_cons_cons] at h
      rw [← List.cons_append, List.getLast?_append, h, Option.some_or]

/-- The proof of a key shows the root and every node on the way that is referenced by digest. -/
theorem NodeAt.mem_hashedOnWay {n m : MptNode} {way : List Nibble} (h : NodeAt n way m) {d : B256}
    (hm : m.reference keccak = .digest d) (rest : List Nibble) :
    m ∈ n :: n.hashedOnWay keccak (way ++ rest) := by
  induction h with
  | refl => exact List.mem_cons_self
  | branch hc _ ih =>
      rw [List.cons_append, hashedOnWay_branch_cons hc]
      exact List.mem_cons_of_mem _ (mem_hashedSelf_append hm (ih hm))
  | extension hp _ ih =>
      rw [List.append_assoc, hashedOnWay_extension_append hp]
      exact List.mem_cons_of_mem _ (mem_hashedSelf_append hm (ih hm))

/-- The proof of a key ends at the last node on its way that is referenced by digest. -/
theorem NodeAt.getLast?_hashedOnWay {n m : MptNode} {way : List Nibble} (h : NodeAt n way m)
    {rest : List Nibble} {d : B256} (hm : m.reference keccak = .digest d)
    (hend : m.hashedOnWay keccak rest = []) :
    (n :: n.hashedOnWay keccak (way ++ rest)).getLast? = some m := by
  induction h with
  | refl => simp [hend]
  | branch hc _ ih =>
      rw [List.cons_append, hashedOnWay_branch_cons hc]
      exact getLast?_hashedSelf_append hm (ih hm hend)
  | extension hp _ ih =>
      rw [List.append_assoc, hashedOnWay_extension_append hp]
      exact getLast?_hashedSelf_append hm (ih hm hend)

theorem mem_hashedSelf {n m : MptNode} (h : m ∈ hashedSelf keccak n) : m = n := by
  unfold hashedSelf at h
  split at h
  · exact List.mem_singleton.mp h
  · cases h

theorem subnode_of_mem_hashedOnWay {n m : MptNode} {key : List Nibble}
    (h : m ∈ n.hashedOnWay keccak key) : Subnode m n := by
  have hstep {c : MptNode} {tail : List Nibble} (ih : ∀ {key}, m ∈ c.hashedOnWay keccak key → Subnode m c)
      (hin : m ∈ hashedSelf keccak c ++ c.hashedOnWay keccak tail) : Subnode m c := by
    rcases List.mem_append.mp hin with hin | hin
    · rw [mem_hashedSelf hin]
      exact .refl c
    · exact ih hin
  induction n generalizing key with
  | null | leaf | digest => cases key <;> cases h
  | branch children ih =>
      cases key with
      | nil => cases h
      | cons i tail =>
          cases hc : children i with
          | none => simp [MptNode.hashedOnWay, hc, hashedFrom] at h
          | some c =>
              rw [hashedOnWay_branch_cons hc] at h
              exact .branch hc (hstep (ih i c hc) h)
  | extension path child ih =>
      cases hp : prefixNibs path with
      | error f => simp [MptNode.hashedOnWay, hp] at h
      | ok ns =>
          by_cases hpre : ns <+: key
          · obtain ⟨tail, rfl⟩ := hpre
            rw [hashedOnWay_extension_append hp] at h
            exact .extension path (hstep ih h)
          · simp [MptNode.hashedOnWay, hp, isPrefixOf?_eq_none hpre] at h

theorem Full.subnode {n m : MptNode} (hn : Full n) (h : Subnode m n) : Full m := by
  induction h with
  | refl => exact hn
  | branch hc _ ih =>
      cases hn with
      | branch _ _ _ hall => exact ih (hall _ _ hc)
  | extension path _ ih =>
      cases hn with
      | extension _ _ hc => exact ih hc

theorem FullTrie.subnode {n m : MptNode} (hn : FullTrie n) (h : Subnode m n) : FullTrie m := by
  rcases hn with rfl | hn
  · cases h
    exact .inl rfl
  · exact .inr (hn.subnode h)

/-- A full trie decodes to its root with the hashed children cut. -/
theorem FullTrie.decode {n : MptNode} (hn : FullTrie n) (haddr : Addressable keccak n) :
    MptNode.decode (n.toRlp keccak) = .ok (n.trunc keccak) := by
  rcases hn with rfl | hn
  · exact WellEncoded.null.decode (show 1 < usizeLimit by decide)
  · exact hn.canonical.wellEncoded.decode (haddr _ (encode_mem hn.isListed))

theorem subnode_of_mem_proof {n m : MptNode} {key : List Nibble}
    (h : m ∈ n :: n.hashedOnWay keccak key) : Subnode m n := by
  rcases List.mem_cons.mp h with rfl | h
  · exact .refl m
  · exact subnode_of_mem_hashedOnWay h

/-- An honest proof parses. -/
theorem FullTrie.parseProof {n : MptNode} (hn : FullTrie n) (haddr : Addressable keccak n) (key : Bytes) :
    RethProcessor.parseProof (honestProof keccak n key) =
      .ok ((n :: n.hashedOnWay keccak (toNibs key)).map (MptNode.trunc keccak)) := by
  rw [RethProcessor.parseProof, honestProof, List.mapM_map]
  apply mapM_ok
  intro m hm
  have hsub := subnode_of_mem_proof hm
  exact (hn.subnode hsub).decode (haddr.child hsub)

theorem reference_trunc (n : MptNode) : (n.trunc keccak).reference keccak = n.reference keccak :=
  (pruning_trunc n).reference_eq

theorem stub_stub {n truncated : MptNode} (href : truncated.reference keccak = n.reference keccak)
    (h : truncated.trunc keccak = truncated) :
    stub keccak (stub keccak n truncated) ((stub keccak n truncated).trunc keccak) =
      stub keccak n truncated := by
  cases hn : n.reference keccak with
  | digest d =>
      have hs : stub keccak n truncated = .digest d := by simp only [stub, hn]
      rw [hs]
      rfl
  | bytes bs =>
      have hs : stub keccak n truncated = truncated := by simp only [stub, hn]
      rw [hs, h]
      simp only [stub, href, hn]

/-- Cutting what is referenced by digest a second time cuts nothing more. -/
theorem trunc_trunc (n : MptNode) : (n.trunc keccak).trunc keccak = n.trunc keccak := by
  induction n with
  | null | leaf | digest => rfl
  | branch children ih =>
      simp only [MptNode.trunc, MptNode.branch.injEq]
      funext i
      cases hc : children i with
      | none => rfl
      | some c =>
          simp only [truncChild, Option.some.injEq]
          exact stub_stub (reference_trunc c) (ih i c hc)
  | extension path child ih =>
      simp only [MptNode.trunc, MptNode.extension.injEq, true_and]
      exact stub_stub (reference_trunc child) ih

theorem WellEncoded.stub {n truncated : MptNode} (h : WellEncoded truncated) :
    WellEncoded (RethProcessor.stub keccak n truncated) := by
  unfold RethProcessor.stub
  split
  · exact .digest _
  · exact h

theorem WellEncoded.trunc {n : MptNode} (h : WellEncoded n) : WellEncoded (n.trunc keccak) := by
  induction h with
  | null => exact .null
  | leaf ns value => exact .leaf ns value
  | digest d => exact .digest d
  | extension ns _ ih => exact .extension ns ih.stub
  | @branch children hnull _ ih =>
      refine .branch (?_) ?_
      · intro i hi
        cases hc : children i with
        | none =>
            simp only [hc, truncChild] at hi
            cases hi
        | some c =>
            simp only [hc, truncChild, Option.some.injEq] at hi
            cases c with
            | null => exact hnull i hc
            | branch | leaf | extension | digest =>
                unfold RethProcessor.stub at hi
                split at hi
                · cases hi
                · cases hi
      · intro i c hi
        cases hc : children i with
        | none =>
            simp only [hc, truncChild] at hi
            cases hi
        | some c =>
            simp only [hc, truncChild, Option.some.injEq] at hi
            rw [← hi]
            exact (ih i c hc).stub

/-- A node as decoding gives it. -/
structure Decoded (keccak : Bytes → B256) (n : MptNode) : Prop where
  wellEncoded : WellEncoded n
  trunc_eq : n.trunc keccak = n
  not_digest : n.isDigest = false

theorem FullTrie.decoded {n : MptNode} (hn : FullTrie n) : Decoded keccak (n.trunc keccak) := by
  have hwell : WellEncoded n := by
    rcases hn with rfl | hn
    · exact .null
    · exact hn.canonical.wellEncoded
  refine ⟨hwell.trunc, trunc_trunc n, ?_⟩
  rcases hn with rfl | hn
  · rfl
  · cases hn <;> rfl

/-- The node that a decoded node stands for can be read off its encoding. -/
theorem Decoded.eq_of_encode {n m : MptNode} (hn : Decoded keccak n) (hm : WellEncoded m)
    (hlen : (m.encode keccak).length < usizeLimit) (h : n.encode keccak = m.encode keccak) :
    n = m.trunc keccak := by
  have hdec := hn.wellEncoded.decode (h ▸ hlen)
  rw [MptNode.toRlp, h, ← MptNode.toRlp, hm.decode hlen, hn.trunc_eq] at hdec
  exact (Except.ok.inj hdec).symm

end RethProcessor
