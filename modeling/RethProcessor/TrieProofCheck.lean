import RethProcessor.TrieFlags
import RethProcessor.TrieFromProof

/-! What accepted proofs prove, whoever wrote them, and which honest proofs are of use. The
trie is put together without knowing the key, so a twin can get the place of a child. -/
namespace RethProcessor
open Paths Rlp Calls

variable {keccak : Bytes → B256}

/-- No subnode of the first node that is referenced by digest is cut from the second one. -/
def Covers (keccak : Bytes → B256) (n m : MptNode) : Prop :=
  ∀ c d, Subnode c n → c.isListed → c.reference keccak = .digest d → ¬ Subnode (.digest d) m

theorem Covers.child {n m n' m' : MptNode} (h : Covers keccak n m) (hn : Subnode n' n) (hm : Subnode m' m) :
    Covers keccak n' m' := fun c d hc hl href hd => h c d (hc.trans hn) hl href (hd.trans hm)

/-- The two sides of a reference: digests on the first one, nothing at all, or two nodes
with one encoding. -/
theorem child_match {n m : MptNode} (hlen : Addressable keccak m) (hfree : CollisionFree keccak m n)
    (hcover : Covers keccak n m) (h : (m.reference keccak).encode = (n.reference keccak).encode) :
    n.isDigest ∨ (n = .null ∧ m = .null) ∨ (n.isListed ∧ m.isListed ∧ m.encode keccak = n.encode keccak) := by
  cases hm : m.isListed with
  | true =>
      rcases match_of_reference hm hlen hfree h with hd | ⟨hn, henc⟩
      · exact .inl hd
      · exact .inr (.inr ⟨hn, rfl, henc⟩)
  | false =>
      cases m with
      | null => exact .inr (.inl ⟨eq_null_of_reference h, rfl⟩)
      | branch | leaf | extension => cases hm
      | digest d =>
          cases hn : n.isListed with
          | false =>
              cases n with
              | null => exact absurd h (encode_digest_ne_empty d)
              | digest e => exact .inl rfl
              | branch | leaf | extension => cases hn
          | true =>
              rw [reference_of_isListed hn, reference_digest] at h
              split at h
              · next hlt =>
                  have := congrArg List.length h
                  simp only [MptNodeReference.encode, List.length_cons, d.length_eq] at this
                  omega
              · next hge =>
                  obtain rfl := encode_digest_inj h
                  exact absurd (.refl _) (hcover n _ (.refl n) hn (by rw [reference_of_isListed hn, if_neg hge]))

/-- Behind equal encodings, and with flagged paths on both sides, what a key finds in one
node it finds in the other, unless that one is cut where the first is not. -/
theorem WellFlagged.lookup_match {n m : MptNode} (hn : WellFlagged n) (hm : WellFlagged m)
    (hnl : n.isListed) (hml : m.isListed) (hlen : Addressable keccak m) (hfree : CollisionFree keccak m n)
    (hcover : Covers keccak n m) (henc : m.encode keccak = n.encode keccak) {key : List Nibble}
    {a : Option Bytes} (h : n.getInternal key = .ok a) : m.getInternal key = .ok a := by
  induction hm generalizing n key with
  | null | digest => cases hml
  | leaf value hflag =>
      rcases leaf_match hnl hlen henc with rfl | ⟨c, rfl⟩
      · exact h
      · cases hn with
        | extension _ hflag' _ =>
            rw [hflag] at hflag'
            cases hflag'
  | @extension path child hne hflag hc ih =>
      rcases extension_match hnl hlen henc with ⟨v, rfl⟩ | ⟨c, rfl, href⟩
      · cases hn with
        | leaf _ hflag' =>
            rw [hflag] at hflag'
            cases hflag'
      · obtain ⟨ns, hns⟩ := prefixNibs_of_ne_nil hne
        by_cases hpre : ns <+: key
        · obtain ⟨tail, rfl⟩ := hpre
          have hsub : Subnode child (.extension path child) := .extension _ (.refl child)
          have hsub' : Subnode c (.extension path c) := .extension _ (.refl c)
          have hget : c.getInternal tail = .ok a := by simpa [MptNode.getInternal, hns] using h
          suffices child.getInternal tail = .ok a by simpa [MptNode.getInternal, hns] using this
          rcases child_match (hlen.child hsub) (hfree.sub hsub hsub') (hcover.child hsub' hsub) href
            with hd | ⟨rfl, rfl⟩ | ⟨hcl, hml, hce⟩
          · rw [isDigest_of_answer hget] at hd
            cases hd
          · exact hget
          · cases hn with
            | extension _ _ hnc =>
                exact ih hnc hcl hml (hlen.child hsub) (hfree.sub hsub hsub') (hcover.child hsub' hsub) hce hget
        · simpa [MptNode.getInternal, hns, isPrefixOf?_eq_none hpre] using h
  | @branch children hnull hall ih =>
      obtain ⟨others, rfl, hitems⟩ := branch_match hnl hlen henc
      cases key with
      | nil => exact h
      | cons x tail =>
          rw [getInternal_branch_cons] at h ⊢
          rcases place_match (hitems x) with hnone | ⟨t, c, hc, ho, hx⟩
          · rw [(hnone tail).2] at h
            rw [(hnone tail).1]
            exact h
          · rw [ho, getChild_some] at h
            rw [hc, getChild_some]
            have hsub : Subnode t (.branch children) := .branch hc (.refl t)
            have hsub' : Subnode c (.branch others) := .branch ho (.refl c)
            rcases child_match (hlen.child hsub) (hfree.sub hsub hsub') (hcover.child hsub' hsub) hx
              with hd | ⟨rfl, rfl⟩ | ⟨hcl, hml, hce⟩
            · rw [isDigest_of_answer h] at hd
              cases hd
            · exact h
            · cases hn with
              | branch _ hall' =>
                  exact ih x t hc (hall' x c ho) hcl hml (hlen.child hsub) (hfree.sub hsub hsub')
                    (hcover.child hsub' hsub) hce h

theorem isDigestOf_iff {d : B256} {n : MptNode} : n.isDigestOf d = true ↔ n = .digest d := by
  cases n with
  | digest e => simp [MptNode.isDigestOf]
  | null | branch | leaf | extension => simp [MptNode.isDigestOf]

/-- The successor gets the place of a digest. -/
theorem replaceChild_inv {i : Nat} {node replacement p : MptNode} {d : B256}
    (h : replaceChild i node d replacement = .ok p) :
    (∃ children x, node = .branch children ∧ children x = some (.digest d) ∧
      p = .branch (Function.update children x (some replacement))) ∨
    ∃ path, node = .extension path (.digest d) ∧ p = .extension path replacement := by
  cases node with
  | null | leaf | digest => cases h
  | extension path child =>
      simp only [replaceChild] at h
      split at h
      · next hd =>
          obtain rfl := isDigestOf_iff.mp hd
          exact .inr ⟨path, rfl, (Except.ok.inj h).symm⟩
      · cases h
  | branch children =>
      simp only [replaceChild] at h
      split at h
      · next x hx =>
          have hany := List.find?_some hx
          cases hc : children x with
          | none =>
              rw [hc] at hany
              cases hany
          | some c =>
              rw [hc, Option.any_some] at hany
              obtain rfl := isDigestOf_iff.mp hany
              exact .inl ⟨children, x, rfl, hc, (Except.ok.inj h).symm⟩
      · cases h

theorem replaceChild_pruning {i : Nat} {node replacement p : MptNode} {d : B256}
    (h : replaceChild i node d replacement = .ok p) (hd : replacement.reference keccak = .digest d) :
    Pruning keccak node p := by
  rcases replaceChild_inv h with ⟨children, x, rfl, hx, rfl⟩ | ⟨path, rfl, rfl⟩
  · have hup := pruning_branch_update (fun y => .refl (children y)) x (pruningChild_some.mpr (.cut hd))
    rw [← hx, Function.update_eq_self] at hup
    exact pruning_branch_iff.mpr hup
  · exact .extension path (.cut hd)

theorem replaceChild_wellFlagged {i : Nat} {node replacement p : MptNode} {d : B256}
    (h : replaceChild i node d replacement = .ok p) (hnode : WellFlagged node)
    (hrep : WellFlagged replacement) (hne : replacement ≠ .null) : WellFlagged p := by
  rcases replaceChild_inv h with ⟨children, x, rfl, hx, rfl⟩ | ⟨path, rfl, rfl⟩
  · cases hnode with
    | branch hnull hall =>
        refine .branch ?_ ?_
        · intro y hy
          by_cases hyx : y = x
          · rw [hyx, Function.update_self] at hy
            exact hne (Option.some.inj hy)
          · rw [Function.update_of_ne hyx] at hy
            exact hnull y hy
        · intro y c hy
          by_cases hyx : y = x
          · rw [hyx, Function.update_self] at hy
            exact Option.some.inj hy ▸ hrep
          · rw [Function.update_of_ne hyx] at hy
            exact hall y c hy
  · cases hnode with
    | extension hpath hflag _ => exact .extension hpath hflag hrep

/-- What the nodes of a proof link up to has the first of them as a pruning. -/
theorem linkNodes_pruning {nodes : List MptNode} (hall : ∀ n ∈ nodes, WellFlagged n) {i : Nat}
    {o : Option MptNode} (h : linkNodes keccak i nodes = .ok o) :
    (nodes = [] ∧ o = none) ∨
      ∃ n rest p, nodes = n :: rest ∧ o = some p ∧ Pruning keccak n p ∧ WellFlagged p := by
  induction nodes generalizing i o with
  | nil => exact .inl ⟨rfl, (Except.ok.inj h).symm⟩
  | cons n rest ih =>
      have hn := hall n List.mem_cons_self
      cases hrest : linkNodes keccak (i + 1) rest with
      | error e =>
          rw [linkNodes, hrest] at h
          cases h
      | ok next =>
          cases next with
          | none =>
              rw [linkNodes, hrest] at h
              exact .inr ⟨n, rest, n, rfl, (Except.ok.inj h).symm, .refl n, hn⟩
          | some replacement =>
              rw [linkNodes, hrest] at h
              cases hd : replacement.reference keccak with
              | bytes bs =>
                  simp only [hd] at h
                  cases h
              | digest d =>
                  simp only [hd] at h
                  obtain ⟨p, hp, rfl⟩ := map_ok_inv h
                  rcases ih (fun m hm => hall m (List.mem_cons_of_mem _ hm)) hrest with
                    ⟨-, hnone⟩ | ⟨m, ms, q, -, hq, -, hwell⟩
                  · cases hnone
                  · cases hq
                    exact .inr ⟨n, rest, p, rfl, rfl, replaceChild_pruning hp hd,
                      replaceChild_wellFlagged hp hn hwell (ne_null_of_reference hd)⟩

theorem parseProof_wellFlagged {proof : List Bytes} {nodes : List MptNode}
    (h : parseProof proof = .ok nodes) : ∀ n ∈ nodes, WellFlagged n := by
  intro n hn
  obtain ⟨bytes, -, hdec⟩ := (mapM_ok_inv h).2.1 n hn
  exact decode_wellFlagged hdec

/-- A trie put together from decoded nodes has the hash of the first, and flagged paths. -/
theorem mptFromProof_pruning {nodes : List MptNode} (hall : ∀ n ∈ nodes, WellFlagged n) {t : MptNode}
    (h : mptFromProof keccak nodes = .ok t) :
    WellFlagged t ∧ t.hash keccak = (nodes.head?.elim EMPTY_ROOT (MptNode.hash keccak)) := by
  obtain ⟨o, ho, rfl⟩ := map_ok_inv h
  rcases linkNodes_pruning hall ho with ⟨rfl, rfl⟩ | ⟨n, rest, p, rfl, rfl, hp, hwell⟩
  · exact ⟨.null, rfl⟩
  · exact ⟨hwell, hp.hash_eq.symm⟩

theorem Full.not_digest {n : MptNode} (hn : Full n) (d : B256) : ¬ Subnode (.digest d) n := by
  intro h
  cases hn.subnode h

theorem FullTrie.wellFlagged {n : MptNode} (hn : FullTrie n) : WellFlagged n := by
  rcases hn with rfl | hn
  · exact .null
  · exact hn.canonical.wellEncoded.wellFlagged

/-- A node with flagged paths and the hash of a full trie answers as the trie does, or not at all. -/
theorem FullTrie.get_of_hash {t n : MptNode} (ht : FullTrie t) (hn : WellFlagged n) (hlen : Addressable keccak t)
    (hfree : CollisionFree keccak t n) (hempty : keccak [EMPTY_STRING_CODE] = EMPTY_ROOT)
    (h : t.hash keccak = n.hash keccak) {key : List Nibble} {a : Option Bytes}
    (ha : n.getInternal key = .ok a) : t.getInternal key = .ok a := by
  rcases encode_of_hash ht.not_isDigest hlen hfree hempty h with hd | ⟨rfl, rfl⟩ | ⟨htl, hl, henc⟩
  · cases n with
    | digest d => cases ha
    | null | branch | leaf | extension => cases hd
  · exact ha
  · exact hn.lookup_match ht.wellFlagged hl htl hlen hfree
      (fun _ d _ _ _ hd => (ht.full_of_isListed htl).not_digest d hd) henc ha

/-- A pruning has no encoding that the trie does not have. -/
theorem Pruning.encodings_subset {p t : MptNode} (h : Pruning keccak p t) : encodings keccak p ⊆ encodings keccak t := by
  rintro e ⟨m, hm, hl, rfl⟩
  induction h with
  | cut =>
      cases hm
      cases hl
  | null =>
      cases hm
      cases hl
  | leaf => exact ⟨m, hm, hl, rfl⟩
  | @branch cs ts hs hc ih =>
      cases hm with
      | refl =>
          rw [Pruning.encode_eq (.branch hs hc) rfl]
          exact encode_mem rfl
      | @branch c _ i hi hm =>
          rcases PruningChild.cases ⟨hs i, hc i⟩ with ⟨hnone, -⟩ | ⟨c', t, hc', ht, -⟩
          · rw [hnone] at hi
            cases hi
          · obtain rfl := Option.some.inj (hi.symm.trans hc')
            exact encodings_mono (.branch ht (.refl t)) (ih i c t hi ht hm)
  | extension path hct ih =>
      cases hm with
      | refl =>
          rw [Pruning.encode_eq (.extension path hct) rfl]
          exact encode_mem rfl
      | extension _ hm => exact encodings_mono (.extension path (.refl _)) (ih hm)

/-- Whatever a list of bytes links up to has the hash of its first node, answers no key other
than every full trie with that hash does, and is right about the keys that are not included. -/
theorem mptFromProof_sound {proof : List Bytes} {nodes : List MptNode} {t : MptNode}
    (hparse : parseProof proof = .ok nodes) (h : mptFromProof keccak nodes = .ok t) :
    t.hash keccak = nodes.head?.elim EMPTY_ROOT (MptNode.hash keccak) ∧
    ∀ full, FullTrieOver 64 full → Addressable keccak full → CollisionFree keccak full t →
      keccak [EMPTY_STRING_CODE] = EMPTY_ROOT → full.hash keccak = t.hash keccak →
      ∀ key, (∀ x, t.get key = .ok x → full.get key = .ok x) ∧
        (isNotIncluded keccak key nodes = .ok true → full.get key = .ok none) ∧
        (isNotIncluded keccak key nodes = .ok false → ∃ value, full.get key = .ok (some value)) := by
  obtain ⟨hwell, hhash⟩ := mptFromProof_pruning (parseProof_wellFlagged hparse) h
  refine ⟨hhash, ?_⟩
  intro full hfull hlen hfree hempty hroot key
  have hget {x : Option Bytes} (hx : t.get key = .ok x) : full.get key = .ok x :=
    hfull.full.get_of_hash hwell hlen hfree hempty hroot hx
  have hnot {b : Bool} (hb : isNotIncluded keccak key nodes = .ok b) : ∃ x, t.get key = .ok x ∧ x.isNone = b := by
    simp only [isNotIncluded, h] at hb
    split at hb
    · cases hb
    · next x hx => exact ⟨x, hx, Except.ok.inj hb⟩
  refine ⟨fun x hx => hget hx, ?_, ?_⟩
  · intro hb
    obtain ⟨x, hx, hnone⟩ := hnot hb
    rw [hget hx, Option.isNone_iff_eq_none.mp hnone]
  · intro hb
    obtain ⟨x, hx, hsome⟩ := hnot hb
    obtain ⟨value, rfl⟩ := Option.isSome_iff_exists.mp (by rw [← Option.not_isNone, hsome]; rfl)
    exact ⟨value, hget hx⟩

theorem isNotIncluded_panic {key : Bytes} {nodes : List MptNode} {t : MptNode} {f : Failure}
    (ht : mptFromProof keccak nodes = .ok t) (hf : t.get key = .error f) :
    isNotIncluded keccak key nodes = .error .panic := by
  simp only [isNotIncluded, ht, hf]

/-- An honest proof parses, links up and tells what the trie says about its key, exactly when
no branch on the way of the key has a child before that has the same digest. -/
theorem FullTrie.honestProof_iff {n : MptNode} (hn : FullTrie n) (haddr : Addressable keccak n) (key : Bytes) :
    (∃ nodes t o, RethProcessor.parseProof (honestProof keccak n key) = .ok nodes ∧
        RethProcessor.mptFromProof keccak nodes = .ok t ∧ n.get key = .ok o ∧ t.get key = .ok o ∧
        RethProcessor.isNotIncluded keccak key nodes = .ok o.isNone) ↔
      Unshadowed keccak n (toNibs key) := by
  have hparse := hn.parseProof haddr key
  obtain ⟨o, ho⟩ : ∃ o, n.get key = .ok o := hn.answers (toNibs key)
  obtain ⟨p, hp, hget⟩ : ∃ p, RethProcessor.mptFromProof keccak
      ((n :: n.hashedOnWay keccak (toNibs key)).map (MptNode.trunc keccak)) = .ok p ∧
        (p.getInternal (toNibs key) = n.getInternal (toNibs key) ↔ Unshadowed keccak n (toNibs key)) := by
    rcases hn with rfl | hn
    · refine ⟨.null, by cases toNibs key <;> rfl, iff_of_true rfl ?_⟩
      intro way children x rest y c c' d hat
      cases hat
    · obtain ⟨p, hp, -, hget, -⟩ := hn.linksUp 0 (toNibs key)
      exact ⟨p, by rw [RethProcessor.mptFromProof, hp]; rfl, hget⟩
  constructor
  · rintro ⟨nodes, t, o', hnodes, ht, ho', hto, -⟩
    obtain rfl := Except.ok.inj (hparse.symm.trans hnodes)
    obtain rfl := Except.ok.inj (hp.symm.trans ht)
    exact hget.mp (hto.trans ho'.symm)
  · intro h
    have hpo : p.get key = .ok o := (hget.mpr h).trans ho
    exact ⟨_, p, o, hparse, hp, ho, hpo, by simp only [RethProcessor.isNotIncluded, hp, hpo]⟩

section Sample

/-- The encodings of the empty trie, of the two leaves and of the branch over them. -/
def leavesEncodings : List Bytes :=
  [[EMPTY_STRING_CODE], [0xe2, 0xa0, 0x30] ++ List.replicate 31 0 ++ [1], cutLeaf,
    [0xf8, 0x51, 0xa0] ++ keptDigest.bytes ++ [0xa0] ++ cutDigest.bytes ++ List.replicate 15 0x80]

def leavesKeccak : Bytes → B256 :=
  tableKeccak (leavesEncodings.zip [EMPTY_ROOT, keptDigest, cutDigest, twoLeavesDigest])

theorem encodings_leaves {e : Bytes} (he : e ∈ encodings leavesKeccak twoLeaves) : e ∈ leavesEncodings := by
  rcases encodings_pair he with rfl | rfl | rfl
  · decide +kernel
  · decide +kernel
  · decide +kernel

theorem addressable_leaves : Addressable leavesKeccak twoLeaves := by
  intro e he
  exact (by decide +kernel : ∀ e ∈ leavesEncodings, e.length < usizeLimit) e (encodings_leaves he)

theorem untwinned_leaves : Untwinned leavesKeccak twoLeaves := untwinned_pair (by decide +kernel)

theorem collisionFree_leaves {p : MptNode} (hp : Pruning leavesKeccak p twoLeaves) :
    CollisionFree leavesKeccak twoLeaves p := by
  have hinj : ∀ x ∈ leavesEncodings, ∀ y ∈ leavesEncodings, leavesKeccak x = leavesKeccak y → x = y := by
    decide +kernel
  exact collisionFree_of_mem hinj List.mem_cons_self (fun e he => encodings_leaves he)
    fun e he => encodings_leaves (hp.encodings_subset he)

/-- The branch and the leaf under its first child link up, and what they say is so. -/
theorem mptFromProof_sound_twoLeaves : ∃ nodes t,
    parseProof [twoLeaves.toRlp leavesKeccak,
      (MptNode.leaf (toEncodedPath (List.replicate 63 0) true) [1]).toRlp leavesKeccak] = .ok nodes ∧
    mptFromProof leavesKeccak nodes = .ok t ∧
    t.hash leavesKeccak = nodes.head?.elim EMPTY_ROOT (MptNode.hash leavesKeccak) ∧
    ∀ key, (∀ x, t.get key = .ok x → twoLeaves.get key = .ok x) ∧
      (isNotIncluded leavesKeccak key nodes = .ok true → twoLeaves.get key = .ok none) ∧
      (isNotIncluded leavesKeccak key nodes = .ok false → ∃ value, twoLeaves.get key = .ok (some value)) := by
  have hfull := fullTrieOver_twoLeaves.full
  have hparse := hfull.parseProof addressable_leaves (List.replicate 32 0)
  obtain ⟨t, ht, hpr, -⟩ := hfull.mptFromProof untwinned_leaves (toNibs (List.replicate 32 0))
  have h := mptFromProof_sound hparse ht
  exact ⟨_, t, hparse, ht, h.1,
    h.2 twoLeaves fullTrieOver_twoLeaves addressable_leaves (collisionFree_leaves hpr) rfl hpr.hash_eq.symm⟩

/-- A leaf, 63 nibbles from the end of its key. -/
def twin : MptNode := .leaf (toEncodedPath (List.replicate 63 0) true) [1]

/-- A full trie of two keys with the same value, that part at their first nibble. -/
def twins : MptNode := splitBranch [] 0 twin 1 twin

theorem fullTrieOver_twins : FullTrieOver 64 twins := by
  refine ⟨.inr (.branch (i := 0) (j := 1) (by decide) rfl rfl ?_), ?_⟩
  · intro i c hc
    rcases child_of_pair hc with ⟨-, rfl⟩ | ⟨-, rfl⟩
    · exact .leaf _ _
    · exact .leaf _ _
  · intro key hlive
    cases key with
    | nil => exact absurd rfl hlive
    | cons i tail =>
        obtain ⟨c, hc, hcl⟩ := hlive.child
        have hlen : tail.length = 63 := by
          rcases child_of_pair hc with ⟨-, rfl⟩ | ⟨-, rfl⟩
          · rw [twin] at hcl
            rw [hcl.leaf_path, List.length_replicate]
          · rw [twin] at hcl
            rw [hcl.leaf_path, List.length_replicate]
        rw [List.length_cons, hlen]

theorem twins_children : ∃ children, twins = .branch children ∧
    ∀ i, children i = if i = 0 ∨ i = 1 then some twin else none := by
  refine ⟨_, rfl, ?_⟩
  intro i
  by_cases h1 : i = 1
  · subst h1
    rfl
  · by_cases h0 : i = 0
    · subst h0
      rfl
    · rw [Function.update_of_ne h1, Function.update_of_ne h0, if_neg (by simp [h0, h1])]
      rfl

theorem reference_twin : twin.reference keccak = .digest (keccak (twin.encode keccak)) := by
  rw [reference_of_isListed rfl, if_neg]
  rw [twin, encode_leaf]
  decide +kernel

theorem length_twins : (twins.encode keccak).length = 83 := by
  obtain ⟨children, heq, hch⟩ := twins_children
  have hlen (i : Nibble) : ((children i).map (MptNode.reference keccak)).elim 1 (·.length) =
      if i = 0 ∨ i = 1 then 33 else 1 := by
    rw [hch]
    split
    · rw [Option.map_some, reference_twin]
      rfl
    · rfl
  rw [heq, encode_length, MptNode.length, MptNode.payloadLength, branchPayloadLength]
  simp only [hlen]
  decide

theorem addressable_twins : Addressable keccak twins := by
  obtain ⟨children, heq, hch⟩ := twins_children
  have hlen := @length_twins keccak
  rw [heq] at hlen ⊢
  intro e he
  rw [encodings_branch] at he
  rcases he with h | ⟨i, c, hc, he⟩
  · rw [h, hlen]
    decide
  · rw [hch] at hc
    split at hc
    · cases hc
      exact (addressable_leaf (n := 35) rfl (by decide) : Addressable keccak twin) e he
    · cases hc

theorem honestProof_iff_twins :
    (∃ nodes t o, parseProof (honestProof cutKeccak twins (List.replicate 32 0)) = .ok nodes ∧
        mptFromProof cutKeccak nodes = .ok t ∧ twins.get (List.replicate 32 0) = .ok o ∧
        t.get (List.replicate 32 0) = .ok o ∧
        isNotIncluded cutKeccak (List.replicate 32 0) nodes = .ok o.isNone) ↔
      Unshadowed cutKeccak twins (toNibs (List.replicate 32 0)) :=
  fullTrieOver_twins.full.honestProof_iff addressable_twins _

/-- The proof of the second of two twins puts the leaf in the place of the first, so the key
runs into the digest that is left. -/
theorem twins_unusable : FullTrieOver 64 twins ∧ ∀ keccak, ∃ nodes t,
    parseProof (honestProof keccak twins (0x10 :: List.replicate 31 0)) = .ok nodes ∧
    mptFromProof keccak nodes = .ok t ∧
    twins.get (0x10 :: List.replicate 31 0) = .ok (some [1]) ∧
    t.get (0x10 :: List.replicate 31 0) = .error (notResolved (keccak (twin.encode keccak))) ∧
    isNotIncluded keccak (0x10 :: List.replicate 31 0) nodes = .error .panic := by
  refine ⟨fullTrieOver_twins, ?_⟩
  intro keccak
  obtain ⟨children, heq, hch⟩ := twins_children
  have hnibs : toNibs (0x10 :: List.replicate 31 0) = 1 :: List.replicate 63 0 := by decide
  have hparse := fullTrieOver_twins.full.parseProof (@addressable_twins keccak) (0x10 :: List.replicate 31 0)
  have hcut {i : Nibble} (hi : i = 0 ∨ i = 1) :
      truncChild keccak (children i) = some (.digest (keccak (twin.encode keccak))) := by
    rw [hch, if_pos hi]
    simp only [truncChild, stub, reference_twin]
  have hway : twins.hashedOnWay keccak (1 :: List.replicate 63 0) = [twin] := by
    rw [heq, hashedOnWay_branch_cons (hch 1), hashedSelf_digest reference_twin]
    rfl
  have hfind : ((List.finRange 16).find? fun i =>
      (truncChild keccak (children i)).any (MptNode.isDigestOf (keccak (twin.encode keccak)))) = some 0 := by
    rw [List.finRange_succ, List.find?_cons_of_pos]
    rw [hcut (.inl rfl), Option.any_some, isDigestOf_iff]
  have hlink : mptFromProof keccak ((twins :: twins.hashedOnWay keccak
      (toNibs (0x10 :: List.replicate 31 0))).map (MptNode.trunc keccak)) =
        .ok (.branch (Function.update (fun i => truncChild keccak (children i)) 0 (some twin))) := by
    have hnodes : linkNodes keccak 0 [twins.trunc keccak, twin] =
        .ok (some (.branch (Function.update (fun i => truncChild keccak (children i)) 0 (some twin)))) :=
      linkNodes_cons rfl reference_twin (by simp only [heq, MptNode.trunc, replaceChild, hfind])
    rw [hnibs, hway]
    exact congrArg (Except.map (·.getD default)) hnodes
  have hget : (MptNode.branch (Function.update (fun i => truncChild keccak (children i)) 0 (some twin))).get
      (0x10 :: List.replicate 31 0) = .error (notResolved (keccak (twin.encode keccak))) := by
    rw [MptNode.get, hnibs, getInternal_branch_cons, Function.update_of_ne (by decide), hcut (.inr rfl)]
    rfl
  exact ⟨_, _, hparse, hlink, rfl, hget, isNotIncluded_panic hlink hget⟩

end Sample

end RethProcessor
