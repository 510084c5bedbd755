import RethProcessor.TrieProofCheck

/-! What a root hash commits to as a whole. Among the nodes that the decoder can return, those
with the hash of a full trie are the ones that stand for it, with some of it cut. -/
namespace RethProcessor
open Paths Rlp

variable {keccak : Bytes → B256}

/-- A list node that is referenced as a digest is referenced by digest itself. -/
theorem reference_of_encode_digest {t : MptNode} (hl : t.isListed) (hlen : Addressable keccak t) {d : B256}
    (h : (t.reference keccak).encode = ((MptNode.digest d).reference keccak).encode) :
    t.reference keccak = .digest d := by
  have hshort := hlen _ (encode_mem hl)
  rw [reference_of_isListed hl] at h ⊢
  split at h
  · exact absurd h (encode_ne_encode_digest hl hshort d)
  · next hge => rw [if_neg hge, encode_digest_inj h]

/-- A node in the place of a full one, with its reference, is a pruning of it. -/
theorem Full.pruning_of_reference {t c : MptNode} (ht : Full t) (hlen : Addressable keccak t)
    (hfree : CollisionFree keccak t c)
    (ih : c.isListed → t.encode keccak = c.encode keccak → Pruning keccak c t)
    (h : (t.reference keccak).encode = (c.reference keccak).encode) : Pruning keccak c t := by
  rcases match_of_reference ht.isListed hlen hfree h with hd | ⟨hl, henc⟩
  · cases c with
    | digest d => exact .cut (reference_of_encode_digest ht.isListed hlen h)
    | null | branch | leaf | extension => cases hd
  · exact ih hl henc

/-- Behind the encoding of a full node, flagged paths leave only its prunings. -/
theorem Full.pruning_of_encode {t m : MptNode} (ht : Full t) (hm : WellFlagged m) (hl : m.isListed)
    (hlen : Addressable keccak t) (hfree : CollisionFree keccak t m) (henc : t.encode keccak = m.encode keccak) :
    Pruning keccak m t := by
  induction ht generalizing m with
  | leaf ns value =>
      rcases leaf_match hl hlen henc with rfl | ⟨c, rfl⟩
      · exact .leaf _ value
      · cases hm with
        | extension _ hflag _ =>
            rw [leafFlag_toEncodedPath] at hflag
            cases hflag
  | @extension ns child hns hkind hc ih =>
      rcases extension_match hl hlen henc with ⟨v, rfl⟩ | ⟨c, rfl, href⟩
      · cases hm with
        | leaf _ hflag =>
            rw [leafFlag_toEncodedPath] at hflag
            cases hflag
      · have hsub : Subnode child (.extension (toEncodedPath ns false) child) := .extension _ (.refl child)
        have hsub' : Subnode c (.extension (toEncodedPath ns false) c) := .extension _ (.refl c)
        have hcf : WellFlagged c := by
          cases hm with
          | extension _ _ hcf => exact hcf
        have hchild := hlen.child hsub
        have hpair := hfree.sub hsub hsub'
        exact .extension _ (hc.pruning_of_reference hchild hpair (fun hcl => ih hcf hcl hchild hpair) href)
  | @branch children i j hij hi hj hall ih =>
      obtain ⟨others, rfl, hitems⟩ := branch_match hl hlen henc
      obtain ⟨hnull, hflagged⟩ : (∀ x, others x ≠ some .null) ∧ ∀ x c, others x = some c → WellFlagged c := by
        cases hm with
        | branch hnull hflagged => exact ⟨hnull, hflagged⟩
      rw [pruning_branch_iff]
      intro x
      have hx := hitems x
      cases hc : children x with
      | none =>
          cases ho : others x with
          | none => exact pruningChild_none
          | some c =>
              rw [hc, ho] at hx
              exact absurd (eq_null_of_reference hx ▸ ho) (hnull x)
      | some t =>
          have ht := hall x t hc
          cases ho : others x with
          | none =>
              rw [hc, ho] at hx
              exact absurd (eq_null_of_reference hx.symm) ht.canonical.ne_null
          | some c =>
              rw [hc, ho, Option.elim_some, Option.elim_some] at hx
              have hsub : Subnode t (.branch children) := .branch hc (.refl t)
              have hsub' : Subnode c (.branch others) := .branch ho (.refl c)
              have hchild := hlen.child hsub
              have hpair := hfree.sub hsub hsub'
              exact pruningChild_some.mpr (ht.pruning_of_reference hchild hpair
                (fun hcl => ih x t hc (hflagged x c ho) hcl hchild hpair) hx)

theorem Pruning.wellFlagged {p t : MptNode} (h : Pruning keccak p t) (ht : CanonicalTrie t) : WellFlagged p := by
  rcases h.canonicalTrie ht with rfl | hp
  · exact .null
  · exact hp.wellEncoded.wellFlagged

section Root

theorem lengthOfLength_pos (n : Nat) : 0 < lengthOfLength n := by
  unfold lengthOfLength
  split <;> omega

theorem le_stringLength (s : Bytes) : s.length ≤ stringLength s := by
  unfold stringLength
  split <;> omega

theorem stringLength_pos (s : Bytes) : 0 < stringLength s := by
  have hheader := lengthOfLength_pos s.length
  unfold stringLength
  split
  · next hbare =>
      cases s with
      | nil => cases hbare
      | cons b s => exact Nat.succ_pos _
  · omega

/-- A reference is as long as the encoding, or 33 bytes long. -/
theorem reference_length {n : MptNode} (hl : n.isListed) :
    min 32 (n.encode keccak).length ≤ (n.reference keccak).length := by
  rw [reference_of_isListed hl]
  split
  · exact Nat.min_le_right _ _
  · exact Nat.le_trans (Nat.min_le_left _ _) (show 32 ≤ 1 + 32 by decide)

theorem Full.exists_child {children : Nibble → Option MptNode} (h : Full (.branch children)) :
    ∃ i c, children i = some c ∧ Full c := by
  cases h with
  | @branch _ i j hij hi hj hall =>
      obtain ⟨c, hc⟩ := Option.isSome_iff_exists.mp hi
      exact ⟨i, c, hc, hall i c hc⟩

/-- The bytes of the paths down to the leaves are in the encoding, or it is long anyway. -/
theorem Full.encode_length_ge {n : MptNode} (h : Full n) {depth : Nat} (hlen : ∀ key, Live n key → key.length = depth) :
    min 32 (depth / 2 + 3) ≤ (n.encode keccak).length := by
  induction h generalizing depth with
  | leaf ns value =>
      have hdepth := hlen ns (by simp [Live])
      have hpath := le_stringLength (toEncodedPath ns true)
      have hvalue := stringLength_pos value
      have hheader := lengthOfLength_pos ((MptNode.leaf (toEncodedPath ns true) value).payloadLength keccak)
      rw [toEncodedPath_length] at hpath
      rw [encode_length, MptNode.length]
      simp only [MptNode.payloadLength] at hheader ⊢
      omega
  | @branch children i j hij hi hj hall ih =>
      obtain ⟨x, c, hc, hcf⟩ := (Full.branch hij hi hj hall).exists_child
      obtain ⟨key, hlive⟩ := hcf.canonical.exists_live
      have hdepth : (x :: key).length = depth := hlen _ (by simpa [Live, hc] using hlive)
      rw [List.length_cons] at hdepth
      have hchild := @ih x c hc (depth - 1) (by
        intro k hk
        have := hlen (x :: k) (by simpa [Live, hc] using hk)
        rw [List.length_cons] at this
        omega)
      have href := @reference_length keccak _ hcf.isListed
      have hitem := @item_length_lt keccak (.branch children) rfl _ (mem_items_branch hc)
      rw [MptNodeReference.encode_length] at hitem
      omega
  | @extension ns child hns hkind hcf ih =>
      obtain ⟨key, hlive⟩ := hcf.canonical.exists_live
      have hdepth : (ns ++ key).length = depth := hlen _ (by simpa [Live] using hlive)
      rw [List.length_append] at hdepth
      have hchild := @ih (depth - ns.length) (by
        intro k hk
        have := hlen (ns ++ k) (by simpa [Live] using hk)
        rw [List.length_append] at this
        omega)
      have href := @reference_length keccak _ hcf.isListed
      have hpath := le_stringLength (toEncodedPath ns false)
      have hheader := lengthOfLength_pos ((MptNode.extension (toEncodedPath ns false) child).payloadLength keccak)
      rw [toEncodedPath_length] at hpath
      rw [encode_length, MptNode.length]
      simp only [MptNode.payloadLength] at hheader ⊢
      omega

/-- The root of a trie over 32-byte keys is never inlined. -/
theorem FullTrieOver.reference_root {t : MptNode} (ht : FullTrieOver 64 t) (hne : t ≠ .null) :
    t.reference keccak = .digest (t.hash keccak) := by
  have hfull := ht.full.resolve_left hne
  have hlen := @Full.encode_length_ge keccak t hfull 64 ht.length
  rw [hash_of_isListed hfull.isListed, reference_of_isListed hfull.isListed, if_neg (by omega)]

/-- The digest of the root of a trie is a pruning of it. -/
theorem FullTrieOver.pruning_digest {t : MptNode} (ht : FullTrieOver 64 t) (hne : t ≠ .null) :
    Pruning keccak (.digest (t.hash keccak)) t := .cut (ht.reference_root hne)

end Root

/-- A node stands for a full trie: some of its subtrees may be cut, and the empty trie may be given
by its root. -/
def StandsFor (keccak : Bytes → B256) (p t : MptNode) : Prop :=
  Pruning keccak p t ∨ p = .digest EMPTY_ROOT ∧ t = .null

namespace StandsFor
variable {p t : MptNode}

theorem hash_eq (h : StandsFor keccak p t) : p.hash keccak = t.hash keccak := by
  rcases h with h | ⟨rfl, rfl⟩
  · exact h.hash_eq
  · rfl

/-- It answers as the trie does, or not at all. -/
theorem getInternal (h : StandsFor keccak p t) (key : List Nibble) :
    (∃ d, p.getInternal key = .error (notResolved d)) ∨ p.getInternal key = t.getInternal key := by
  rcases h with h | ⟨rfl, rfl⟩
  · exact h.getInternal key
  · exact .inl ⟨EMPTY_ROOT, rfl⟩

/-- What is read of it is what stands in the trie. -/
theorem get_of_ok (h : StandsFor keccak p t) {key : Bytes} {o : Option Bytes} (hget : p.get key = .ok o) :
    t.get key = .ok o := by
  rcases h.getInternal (toNibs key) with ⟨d, hd⟩ | heq
  · rw [MptNode.get, hd] at hget
    cases hget
  · exact heq.symm.trans hget

theorem wellFlagged (h : StandsFor keccak p t) (ht : CanonicalTrie t) : WellFlagged p := by
  rcases h with h | ⟨rfl, -⟩
  · exact h.wellFlagged ht
  · exact .digest EMPTY_ROOT

end StandsFor

/-- Short of collisions, a node stands for a full trie exactly when its paths are flagged as the
decoder reads them and it has the hash of the trie. -/
theorem standsFor_iff_hash {t m : MptNode} (ht : FullTrieOver 64 t) (hlen : Addressable keccak t)
    (hfree : CollisionFree keccak t m) (hempty : keccak [EMPTY_STRING_CODE] = EMPTY_ROOT) :
    StandsFor keccak m t ↔ WellFlagged m ∧ m.hash keccak = t.hash keccak := by
  constructor
  · intro h
    exact ⟨h.wellFlagged ht.full.canonical, h.hash_eq⟩
  · rintro ⟨hflag, hhash⟩
    rcases encode_of_hash ht.full.not_isDigest hlen hfree hempty hhash.symm with hd | ⟨rfl, rfl⟩ | ⟨hn, hl, henc⟩
    · cases m with
      | digest d =>
          obtain rfl : d = t.hash keccak := hhash
          by_cases hnull : t = .null
          · rw [hnull]
            exact .inr ⟨rfl, rfl⟩
          · exact .inl (ht.pruning_digest hnull)
      | null | branch | leaf | extension => cases hd
    · exact .inl .null
    · exact .inl ((ht.full.full_of_isListed hn).pruning_of_encode hflag hl hlen hfree henc)

section Sample

/-- The extension of the sample, with the digest of the branch in its place. -/
def cutExtension : MptNode := .extension (toEncodedPath [0] false) (.digest (sharedKeccak (lowBranch.encode sharedKeccak)))

theorem pruning_cutExtension : Pruning sharedKeccak cutExtension sharedStart :=
  .extension _ (.cut reference_lowBranch)

theorem collisionFree_cutExtension : CollisionFree sharedKeccak sharedStart cutExtension := by
  have hinj : ∀ x ∈ sharedEncodings, ∀ y ∈ sharedEncodings, sharedKeccak x = sharedKeccak y → x = y := by
    decide +kernel
  exact collisionFree_of_mem hinj (by simp [sharedEncodings]) (fun e he => encodings_sharedStart he)
    fun e he => encodings_sharedStart (pruning_cutExtension.encodings_subset he)

theorem standsFor_iff_hash_cutExtension : StandsFor sharedKeccak cutExtension sharedStart ↔
    WellFlagged cutExtension ∧ cutExtension.hash sharedKeccak = sharedStart.hash sharedKeccak :=
  standsFor_iff_hash fullTrieOver_sharedStart
    (fun e he => (by decide +kernel : ∀ e ∈ sharedEncodings, e.length < usizeLimit) e (encodings_sharedStart he))
    collisionFree_cutExtension rfl

end Sample

end RethProcessor
