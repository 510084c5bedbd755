import RethProcessor.TrieSparse

/-! Prunings: a trie with some of its subtrees, those referenced by digest, replaced by
their digests. Lookup and insertion on a pruning agree with the trie it was cut from. -/
namespace RethProcessor
open Paths

section
variable (keccak : Bytes → B256)

/-- The first node is the second one with some subtrees cut down to their digests. -/
inductive Pruning : MptNode → MptNode → Prop
  | cut {t : MptNode} {d : B256} : t.reference keccak = .digest d → Pruning (.digest d) t
  | null : Pruning .null .null
  | leaf (path value : Bytes) : Pruning (.leaf path value) (.leaf path value)
  | branch {cs ts : Nibble → Option MptNode} : (∀ i, (cs i).isSome = (ts i).isSome) →
      (∀ i c t, cs i = some c → ts i = some t → Pruning c t) → Pruning (.branch cs) (.branch ts)
  | extension (path : Bytes) {c t : MptNode} : Pruning c t →
      Pruning (.extension path c) (.extension path t)

/-- A pruning at a place where a branch may have no child. -/
def PruningChild (o p : Option MptNode) : Prop :=
  o.isSome = p.isSome ∧ ∀ c t, o = some c → p = some t → Pruning keccak c t

end

variable {keccak : Bytes → B256}

theorem Pruning.refl (n : MptNode) : Pruning keccak n n := by
  induction n with
  | null => exact .null
  | branch children ih =>
      refine .branch (fun _ => rfl) ?_
      intro i c t hc ht
      obtain rfl : c = t := Option.some.inj (hc.symm.trans ht)
      exact ih i c hc
  | leaf path value => exact .leaf path value
  | extension path child ih => exact .extension path ih
  | digest d => exact .cut rfl

theorem PruningChild.refl (o : Option MptNode) : PruningChild keccak o o :=
  ⟨rfl, fun c _ hc ht => Option.some.inj (hc.symm.trans ht) ▸ Pruning.refl c⟩

theorem pruningChild_none : PruningChild keccak none none := .refl none

theorem pruningChild_some {c t : MptNode} :
    PruningChild keccak (some c) (some t) ↔ Pruning keccak c t :=
  ⟨fun h => h.2 c t rfl rfl, fun h => ⟨rfl, fun _ _ hc ht => Option.some.inj hc ▸ Option.some.inj ht ▸ h⟩⟩

/-- The two sides of a place in a branch: empty both, or a child and a pruning of it. -/
theorem PruningChild.cases {o p : Option MptNode} (h : PruningChild keccak o p) :
    (o = none ∧ p = none) ∨ ∃ c t, o = some c ∧ p = some t ∧ Pruning keccak c t := by
  cases o with
  | none =>
      cases p with
      | none => exact .inl ⟨rfl, rfl⟩
      | some t => exact absurd h.1 (by simp)
  | some c =>
      cases p with
      | none => exact absurd h.1 (by simp)
      | some t => exact .inr ⟨c, t, rfl, rfl, pruningChild_some.mp h⟩

theorem pruning_branch_iff {cs ts : Nibble → Option MptNode} :
    Pruning keccak (.branch cs) (.branch ts) ↔ ∀ i, PruningChild keccak (cs i) (ts i) := by
  constructor
  · intro h i
    cases h with
    | branch hs hc => exact ⟨hs i, hc i⟩
  · intro h
    exact .branch (fun i => (h i).1) fun i => (h i).2

theorem pruning_branch_update {cs ts : Nibble → Option MptNode}
    (h : ∀ i, PruningChild keccak (cs i) (ts i)) (x : Nibble) {o p : Option MptNode}
    (hx : PruningChild keccak o p) (i : Nibble) :
    PruningChild keccak (Function.update cs x o i) (Function.update ts x p i) := by
  by_cases hi : i = x
  · subst hi
    rwa [Function.update_self, Function.update_self]
  · rw [Function.update_of_ne hi, Function.update_of_ne hi]
    exact h i

/-- Branches with children of the same references have the same encoding. -/
theorem encode_branch_congr {cs ts : Nibble → Option MptNode} (hs : ∀ i, (cs i).isSome = (ts i).isSome)
    (h : ∀ i c t, cs i = some c → ts i = some t → c.reference keccak = t.reference keccak) :
    (MptNode.branch cs).encode keccak = (MptNode.branch ts).encode keccak := by
  have hitems : (MptNode.branch cs).items keccak = (MptNode.branch ts).items keccak := by
    simp only [MptNode.items]
    congr 1
    apply List.map_congr_left
    intro i _
    cases hc : cs i with
    | none =>
        have ht : ts i = none := by simpa [hc] using hs i
        rw [ht]
    | some c =>
        obtain ⟨t, ht⟩ : ∃ t, ts i = some t := Option.isSome_iff_exists.mp (by rw [← hs i, hc]; rfl)
        simp [ht, h i c t hc ht]
  rw [encode_branch, encode_branch, hitems]

/-- A pruning is referenced as the trie it was cut from. -/
theorem Pruning.reference_eq {p t : MptNode} (h : Pruning keccak p t) :
    p.reference keccak = t.reference keccak := by
  induction h with
  | cut hd => exact hd.symm
  | null | leaf => rfl
  | branch hs _ ih => rw [reference_of_isListed rfl, reference_of_isListed rfl, encode_branch_congr hs ih]
  | extension path _ ih =>
      rw [reference_of_isListed rfl, reference_of_isListed rfl, encode_extension, encode_extension, ih]

/-- And encoded as it, unless all of it is cut. -/
theorem Pruning.encode_eq {p t : MptNode} (h : Pruning keccak p t) (hl : p.isListed) :
    p.encode keccak = t.encode keccak := by
  cases h with
  | cut => cases hl
  | null | leaf => rfl
  | branch hs hc => exact encode_branch_congr hs fun i c t hi ht => (hc i c t hi ht).reference_eq
  | extension path hct => rw [encode_extension, encode_extension, hct.reference_eq]

theorem Pruning.null_iff {p t : MptNode} (h : Pruning keccak p t) : p = .null ↔ t = .null := by
  cases h with
  | cut hd =>
      simp only [reduceCtorEq, false_iff]
      rintro rfl
      simp at hd
  | null | leaf | branch | extension => simp

theorem Pruning.hash_eq {p t : MptNode} (h : Pruning keccak p t) : p.hash keccak = t.hash keccak :=
  hash_of_reference h.null_iff h.reference_eq

/-- A pruning of a canonical node is canonical. -/
theorem Pruning.canonical {p t : MptNode} (h : Pruning keccak p t) (ht : Canonical t) :
    Canonical p := by
  induction h with
  | cut => exact .digest _
  | null | leaf => exact ht
  | @branch cs ts hs hc ih =>
      cases ht with
      | @branch _ i j hne hi hj hall =>
          refine .branch hne (by rwa [hs]) (by rwa [hs]) ?_
          intro k c hk
          rcases PruningChild.cases ⟨hs k, hc k⟩ with ⟨h₁, -⟩ | ⟨c', t, h₁, h₂, -⟩
          · rw [h₁] at hk
            cases hk
          · obtain rfl : c = c' := Option.some.inj (hk.symm.trans h₁)
            exact ih k c t h₁ h₂ (hall k t h₂)
  | @extension path c t hct ih =>
      cases ht with
      | @extension ns _ hns hkind hc =>
          refine .extension hns ?_ (ih hc)
          cases hct with
          | cut => exact .inr rfl
          | branch => exact .inl rfl
          | null | leaf | extension => simp [MptNode.isBranch, MptNode.isDigest] at hkind

theorem Pruning.canonicalTrie {p t : MptNode} (h : Pruning keccak p t) (ht : CanonicalTrie t) :
    CanonicalTrie p := by
  rcases ht with rfl | ht
  · exact .inl (h.null_iff.mpr rfl)
  · exact .inr (h.canonical ht)

/-- A lookup in a pruning reaches a digest, or finds what the trie holds. -/
theorem Pruning.getInternal {p t : MptNode} (h : Pruning keccak p t) (key : List Nibble) :
    (∃ d, p.getInternal key = .error (notResolved d)) ∨ p.getInternal key = t.getInternal key := by
  induction h generalizing key with
  | cut => exact .inl ⟨_, rfl⟩
  | null | leaf => exact .inr rfl
  | @branch cs ts hs hc ih =>
      cases key with
      | nil => exact .inr rfl
      | cons i tail =>
          rw [getInternal_branch_cons, getInternal_branch_cons]
          rcases PruningChild.cases ⟨hs i, hc i⟩ with ⟨h₁, h₂⟩ | ⟨c, t, h₁, h₂, -⟩
          · simp [h₁, h₂]
          · rw [h₁, h₂]
            exact ih i c t h₁ h₂ tail
  | @extension path c t _ ih =>
      cases hp : prefixNibs path with
      | error f => simp [MptNode.getInternal, hp]
      | ok ns =>
          by_cases hpre : ns <+: key
          · obtain ⟨tail, rfl⟩ := hpre
            simpa [MptNode.getInternal, hp] using ih tail
          · simp [MptNode.getInternal, hp, isPrefixOf?_eq_none hpre]

/-- The outcome on `p` is the refusal of a digest, or it is the outcome on the trie, up to pruning. -/
def Agree (keccak : Bytes → B256) (p : MptNode) (r s : Mutation) : Prop :=
  (∃ d, r = (.error (notResolved d), p)) ∨ (r.1 = s.1 ∧ Pruning keccak r.2 s.2)

theorem pruning_splitBranch {left left' right : MptNode} (h : Pruning keccak left left')
    (common : List Nibble) (a b : Nibble) :
    Pruning keccak (splitBranch common a left b right) (splitBranch common a left' b right) := by
  have hb := pruning_branch_iff.mpr (pruning_branch_update (pruning_branch_update
    (fun i => .refl (noChildren i)) a (pruningChild_some.mpr h)) b (.refl (some right)))
  unfold splitBranch
  split
  · exact .extension _ hb
  · exact hb

theorem pruning_splitExtension {c t : MptNode} (h : Pruning keccak c t) (path value : Bytes)
    (selfNibs key : List Nibble) :
    (splitExtension path c selfNibs key value).1 = (splitExtension path t selfNibs key value).1 ∧
      Pruning keccak (splitExtension path c selfNibs key value).2
        (splitExtension path t selfNibs key value).2 := by
  simp only [splitExtension]
  split
  · refine ⟨rfl, pruning_splitBranch ?_ _ _ _⟩
    split
    · exact .extension _ h
    · exact h
  · exact ⟨rfl, .extension path h⟩

/-- An insertion into a pruning reaches a digest, or goes as in the trie. -/
theorem Pruning.insertInternal {p t : MptNode} (h : Pruning keccak p t) (key : List Nibble)
    (value : Bytes) : Agree keccak p (p.insertInternal key value) (t.insertInternal key value) := by
  induction h generalizing key with
  | cut => exact .inl ⟨_, rfl⟩
  | null => exact .inr ⟨rfl, .refl _⟩
  | leaf path old => exact .inr ⟨rfl, .refl _⟩
  | @branch cs ts hs hc ih =>
      have hch (i : Nibble) : PruningChild keccak (cs i) (ts i) := ⟨hs i, hc i⟩
      cases key with
      | nil => exact .inr ⟨rfl, pruning_branch_iff.mpr hch⟩
      | cons i tail =>
          rw [insertInternal_branch_cons, insertInternal_branch_cons]
          rcases (hch i).cases with ⟨h₁, h₂⟩ | ⟨c, t, h₁, h₂, -⟩
          · rw [h₁, h₂]
            exact .inr ⟨rfl, pruning_branch_iff.mpr (pruning_branch_update hch i (.refl _))⟩
          · rw [h₁, h₂, insertChild_some, insertChild_some]
            rcases ih i c t h₁ h₂ tail with ⟨d, hd⟩ | ⟨hr, hp⟩
            · exact .inl ⟨d, by simp [hd, ← h₁]⟩
            · exact .inr ⟨hr, pruning_branch_iff.mpr
                (pruning_branch_update hch i (pruningChild_some.mpr hp))⟩
  | @extension path c t hct ih =>
      cases hp : prefixNibs path with
      | error f =>
          simp only [MptNode.insertInternal, hp]
          exact .inr ⟨rfl, .extension path hct⟩
      | ok ns =>
          simp only [MptNode.insertInternal, hp]
          split
          · rcases ih (key.drop (lcp ns key)) with ⟨d, hd⟩ | ⟨hr, hpr⟩
            · exact .inl ⟨d, by rw [hd]⟩
            · exact .inr ⟨hr, .extension path hpr⟩
          · split
            · exact .inr ⟨rfl, .extension path hct⟩
            · exact .inr (pruning_splitExtension hct path value ns key)

/-- On a pruning of a full trie over 32-byte keys, a lookup either reaches a digest or
returns what the trie returns, and an insertion either reaches a digest and changes nothing
or does what it does to the trie, up to pruning. -/
theorem get_insert_pruning {t p : MptNode} (ht : FullTrieOver 64 t) (hp : Pruning keccak p t)
    {key value : Bytes} (hkey : key.length = 32) (hvalue : value ≠ []) :
    ((∃ d, p.get key = .error (notResolved d)) ∨ p.get key = t.get key) ∧
    ((∃ d, p.insert key value = (.error (notResolved d), p)) ∨
      ∃ b p' t', p.insert key value = (.ok b, p') ∧ t.insert key value = (.ok b, t') ∧
        Pruning keccak p' t' ∧ p'.hash keccak = t'.hash keccak) := by
  refine ⟨hp.getInternal (toNibs key), ?_⟩
  rw [MptNode.insert_of_ne hvalue, MptNode.insert_of_ne hvalue]
  obtain ⟨o, ho⟩ := ht.full.answers (toNibs key)
  obtain ⟨t', ht', -, -⟩ := ht.full.canonical.insertInternal_ok (ht.admits hkey) ho value
  rcases hp.insertInternal (toNibs key) value with hd | ⟨hr, hpr⟩
  · exact .inl hd
  · rw [ht'] at hr hpr
    exact .inr ⟨_, (p.insertInternal (toNibs key) value).2, t', Prod.ext hr rfl, ht', hpr, hpr.hash_eq⟩

section Sample

/-- A full trie of two keys, of 64 nibbles, that part at their first one. -/
def twoLeaves : MptNode :=
  splitBranch [] 0 (.leaf (toEncodedPath (List.replicate 63 0) true) [1])
    1 (.leaf (toEncodedPath (List.replicate 63 0) true) [2])

/-- The same trie with the second leaf cut. -/
def oneCut (d : B256) : MptNode :=
  splitBranch [] 0 (.leaf (toEncodedPath (List.replicate 63 0) true) [1]) 1 (.digest d)

/-- The encoding of the leaf that is cut. -/
def cutLeaf : Bytes := [0xe2, 0xa0, 0x30] ++ List.replicate 31 0 ++ [2]

/-- Its digest. -/
def cutDigest : B256 where
  bytes := [0x6e, 0x9c, 0x0a, 0xd6, 0x43, 0x01, 0xea, 0x72, 0x97, 0x7e, 0x7b, 0x34, 0x6f, 0x6b, 0x57, 0x62, 0xc9,
    0x93, 0xb4, 0x5b, 0xf7, 0xda, 0xbf, 0xb5, 0x1c, 0x09, 0x57, 0xd1, 0xd6, 0x45, 0x5b, 0x6b]
  length_eq := rfl

/-- The digest of the other leaf, and the one of the branch. -/
def keptDigest : B256 where
  bytes := [0x51, 0x78, 0x6a, 0x8d, 0x3b, 0xc1, 0x35, 0x23, 0xfe, 0x2a, 0x4a, 0x4d, 0xe4, 0x2b, 0xa8, 0x91, 0x61,
    0x7b, 0x2a, 0xad, 0x3a, 0x2d, 0xa9, 0xa0, 0x68, 0x1c, 0x6e, 0xfa, 0x22, 0x63, 0xf4, 0x34]
  length_eq := rfl

def twoLeavesDigest : B256 where
  bytes := [0x34, 0x73, 0x41, 0x19, 0xa8, 0x8c, 0xeb, 0x41, 0x06, 0xa4, 0x8e, 0xc1, 0xd6, 0x78, 0xbc, 0x9e, 0xef,
    0xa8, 0x52, 0x66, 0xb0, 0xe1, 0xb4, 0xd2, 0x30, 0x7c, 0x91, 0x01, 0xbd, 0xb7, 0xdb, 0x56]
  length_eq := rfl

/-- A table that stands for `keccak` on the encodings of an example, the empty trie's among them. -/
def tableKeccak (table : List (Bytes × B256)) (encoded : Bytes) : B256 :=
  (table.lookup encoded).getD EMPTY_ROOT

def cutKeccak : Bytes → B256 := tableKeccak [(cutLeaf, cutDigest)]

theorem fullTrieOver_pair {a b : Nibble} (hab : a ≠ b) {p q : List Nibble} (hp : p.length = 63) (hq : q.length = 63)
    (v w : Bytes) :
    FullTrieOver 64 (splitBranch [] a (.leaf (toEncodedPath p true) v) b (.leaf (toEncodedPath q true) w)) := by
  rw [splitBranch, if_neg (by simp)]
  refine ⟨.inr (.branch hab ?_ ?_ ?_), ?_⟩
  · rw [Function.update_of_ne hab, Function.update_self]
    rfl
  · rw [Function.update_self]
    rfl
  · intro i c hc
    rcases child_of_pair hc with ⟨-, rfl⟩ | ⟨-, rfl⟩
    · exact .leaf _ _
    · exact .leaf _ _
  · intro key hlive
    cases key with
    | nil => exact absurd rfl hlive
    | cons i tail =>
        obtain ⟨c, hc, hcl⟩ := hlive.child
        rcases child_of_pair hc with ⟨-, rfl⟩ | ⟨-, rfl⟩
        · rw [hcl.leaf_path, List.length_cons, hp]
        · rw [hcl.leaf_path, List.length_cons, hq]

theorem fullTrieOver_twoLeaves : FullTrieOver 64 twoLeaves :=
  fullTrieOver_pair (by decide) List.length_replicate List.length_replicate _ _

theorem pruning_oneCut (d : B256)
    (h : (MptNode.leaf (toEncodedPath (List.replicate 63 0) true) [2]).reference keccak = .digest d) :
    Pruning keccak (oneCut d) twoLeaves :=
  pruning_branch_iff.mpr (pruning_branch_update (fun _ => .refl _) 1 (pruningChild_some.mpr (.cut h)))

theorem reference_cutLeaf (keccak : Bytes → B256) :
    (MptNode.leaf (toEncodedPath (List.replicate 63 0) true) [2]).reference keccak =
      .digest (keccak cutLeaf) := by
  have h : (MptNode.leaf (toEncodedPath (List.replicate 63 0) true) [2]).encode keccak = cutLeaf := by
    rw [encode_leaf]
    rfl
  rw [reference_of_isListed rfl, h]
  rfl

theorem reference_cutKeccak :
    (MptNode.leaf (toEncodedPath (List.replicate 63 0) true) [2]).reference cutKeccak =
      .digest cutDigest := by
  rw [reference_cutLeaf]
  rfl

theorem get_insert_pruning_oneCut :
    ((∃ d, (oneCut cutDigest).get (List.replicate 32 0) = .error (notResolved d)) ∨
      (oneCut cutDigest).get (List.replicate 32 0) = twoLeaves.get (List.replicate 32 0)) ∧
    ((∃ d, (oneCut cutDigest).insert (List.replicate 32 0) [3] =
        (.error (notResolved d), oneCut cutDigest)) ∨
      ∃ b p' t', (oneCut cutDigest).insert (List.replicate 32 0) [3] = (.ok b, p') ∧
        twoLeaves.insert (List.replicate 32 0) [3] = (.ok b, t') ∧ Pruning cutKeccak p' t' ∧
        p'.hash cutKeccak = t'.hash cutKeccak) :=
  get_insert_pruning fullTrieOver_twoLeaves (pruning_oneCut cutDigest reference_cutKeccak)
    (by decide) (by decide)

end Sample

end RethProcessor
