import RethProcessor.TrieCanonical

/-! Insertion: it fails where a lookup of the key fails, and otherwise changes what the
trie says about that key and about no other. -/
namespace RethProcessor
open Paths

/-- No key held by the trie clashes with this one, unless the trie hides it. -/
def Admits (n : MptNode) (key : List Nibble) : Prop :=
  ∀ k, Live n k → Clash k key → k = key ∨ ∃ f, n.getInternal key = .error f

theorem Admits.child {children : Nibble → Option MptNode} {i : Nibble} {tail : List Nibble}
    {c : MptNode} (h : Admits (.branch children) (i :: tail)) (hc : children i = some c) :
    Admits c tail := by
  intro k hk hclash
  have hlive : Live (.branch children) (i :: k) := by simpa [Live, hc] using hk
  simpa [hc] using h (i :: k) hlive (by simpa using hclash)

theorem Admits.below_path {ns tail : List Nibble} {child : MptNode}
    (h : Admits (.extension (toEncodedPath ns false) child) (ns ++ tail)) : Admits child tail := by
  intro k hk hclash
  simpa using h (ns ++ k) (by simpa [Live] using hk) (by simpa using hclash)

theorem Admits.of_child {children : Nibble → Option MptNode} {i : Nibble} {tail : List Nibble}
    (h : ∀ c, children i = some c → Admits c tail) : Admits (.branch children) (i :: tail) := by
  intro k hk hclash
  cases k with
  | nil => exact absurd rfl hk
  | cons j s =>
      obtain ⟨c, hc, hlive⟩ := hk.child
      by_cases hj : j = i
      · subst hj
        simpa [hc] using h c hc s hlive (by simpa using hclash)
      · exact absurd hclash (not_clash_cons_of_ne hj s tail)

theorem Admits.of_below_path {ns tail : List Nibble} {child : MptNode} (h : Admits child tail) :
    Admits (.extension (toEncodedPath ns false) child) (ns ++ tail) := by
  intro k hk hclash
  obtain ⟨s, rfl, hlive⟩ := hk.extends_path
  simpa using h s hlive (by simpa using hclash)

/-- Beside its path an extension admits every key. -/
theorem admits_apart {c s t : List Nibble} {a b : Nibble} (hne : a ≠ b) (child : MptNode) :
    Admits (.extension (toEncodedPath (c ++ a :: s) false) child) (c ++ b :: t) := by
  intro k hk hclash
  obtain ⟨r, rfl, -⟩ := hk.extends_path
  rw [List.append_assoc, clash_append_left, List.cons_append] at hclash
  exact absurd hclash (not_clash_cons_of_ne hne _ _)

@[simp] theorem insertInternal_branch_cons (children : Nibble → Option MptNode) (i : Nibble)
    (tail : List Nibble) (value : Bytes) :
    (MptNode.branch children).insertInternal (i :: tail) value =
      ((insertChild (children i) tail value).1,
        .branch (Function.update children i (insertChild (children i) tail value).2)) := rfl

@[simp] theorem insertChild_none (tail : List Nibble) (value : Bytes) :
    insertChild none tail value = (.ok true, some (.leaf (toEncodedPath tail true) value)) := rfl

@[simp] theorem insertChild_some (node : MptNode) (tail : List Nibble) (value : Bytes) :
    insertChild (some node) tail value =
      ((node.insertInternal tail value).1, some (node.insertInternal tail value).2) := rfl

theorem insertInternal_extension_append {path : Bytes} {ns : List Nibble} (child : MptNode)
    (hp : prefixNibs path = .ok ns) (tail : List Nibble) (value : Bytes) :
    (MptNode.extension path child).insertInternal (ns ++ tail) value =
      ((child.insertInternal tail value).1, .extension path (child.insertInternal tail value).2) := by
  simp [MptNode.insertInternal, hp]

/-- Where a lookup fails, an insertion fails in the same way and changes nothing. -/
theorem insertInternal_error {n : MptNode} {key : List Nibble} {f : Failure}
    (h : n.getInternal key = .error f) (value : Bytes) : n.insertInternal key value = (.error f, n) := by
  induction n generalizing key with
  | null => cases h
  | branch children ih =>
      cases key with
      | nil => cases h
      | cons i tail =>
          cases hc : children i with
          | none => simp [hc] at h
          | some c =>
              rw [getInternal_branch_cons, hc, getChild_some] at h
              rw [insertInternal_branch_cons, hc, insertChild_some, ih i c hc h]
              simp [← hc]
  | leaf path old =>
      cases hp : prefixNibs path with
      | error g => simp_all [MptNode.getInternal, MptNode.insertInternal]
      | ok ns => simp [MptNode.getInternal, hp] at h
  | extension path child ih =>
      cases hp : prefixNibs path with
      | error g => simp_all [MptNode.getInternal, MptNode.insertInternal]
      | ok ns =>
          by_cases hpre : ns <+: key
          · obtain ⟨tail, rfl⟩ := hpre
            have hc : child.getInternal tail = .error f := by simpa [MptNode.getInternal, hp] using h
            rw [insertInternal_extension_append child hp, ih hc]
          · simp [MptNode.getInternal, hp, isPrefixOf?_eq_none hpre] at h
  | digest d =>
      cases h
      rfl

/-- `m` says `r` at the key and what `n` says at any other key. -/
def Overwrites (n m : MptNode) (key : List Nibble) (r : Option Bytes) : Prop :=
  m.getInternal = Function.update n.getInternal key (.ok r)

theorem overwrites_branch {children : Nibble → Option MptNode} {i : Nibble} {o : Option MptNode}
    {tail : List Nibble} {r : Option Bytes}
    (h : getChild o = Function.update (getChild (children i)) tail (.ok r)) :
    Overwrites (.branch children) (.branch (Function.update children i o)) (i :: tail) r := by
  funext k
  cases k with
  | nil => simp [Function.update]
  | cons j s =>
      by_cases hj : j = i
      · subst hj
        rw [getInternal_branch_cons, Function.update_self, h]
        by_cases hs : s = tail
        · simp [hs]
        · simp [Function.update, hs]
      · simp [Function.update, hj]

theorem overwrites_extension {child m : MptNode} {tail : List Nibble} {r : Option Bytes}
    (h : Overwrites child m tail r) (ns : List Nibble) :
    Overwrites (.extension (toEncodedPath ns false) child) (.extension (toEncodedPath ns false) m)
      (ns ++ tail) r := by
  funext k
  by_cases hk : ns <+: k
  · obtain ⟨s, rfl⟩ := hk
    rw [getInternal_extension_append, h]
    by_cases hs : s = tail
    · simp [hs]
    · simp [Function.update, hs]
  · have hne : k ≠ ns ++ tail := by
      rintro rfl
      exact hk (List.prefix_append ns tail)
    rw [getInternal_extension_of_not hk, Function.update_of_ne hne, getInternal_extension_of_not hk]

theorem canonical_branch_update {children : Nibble → Option MptNode} {c : MptNode}
    (h : Canonical (.branch children)) (hc : Canonical c) (i : Nibble) :
    Canonical (.branch (Function.update children i (some c))) := by
  have hsome (k : Nibble) (hk : (children k).isSome) :
      (Function.update children i (some c) k).isSome := by
    by_cases hki : k = i
    · subst hki
      simp
    · rwa [Function.update_of_ne hki]
  have hall (k : Nibble) (b : MptNode) (hb : Function.update children i (some c) k = some b) :
      Canonical b := by
    by_cases hki : k = i
    · subst hki
      rw [Function.update_self] at hb
      exact Option.some.inj hb ▸ hc
    · rw [Function.update_of_ne hki] at hb
      exact h.child hb
  cases h with
  | branch hne hi hj _ => exact .branch hne (hsome _ hi) (hsome _ hj) hall

/-! ### A branch over two nodes -/

section Split

variable {common : List Nibble} {a b : Nibble} {left right : MptNode}

theorem getInternal_splitBranch_under (k' : List Nibble) :
    (splitBranch common a left b right).getInternal (common ++ k') =
      (MptNode.branch (Function.update (Function.update noChildren a (some left)) b
        (some right))).getInternal k' := by
  unfold splitBranch
  split
  · simp
  · next h =>
      obtain rfl : common = [] := by simpa using h
      simp

theorem getInternal_splitBranch_left (hne : a ≠ b) (s : List Nibble) :
    (splitBranch common a left b right).getInternal (common ++ a :: s) = left.getInternal s := by
  rw [getInternal_splitBranch_under]
  simp [Function.update_of_ne hne]

theorem getInternal_splitBranch_right (t : List Nibble) :
    (splitBranch common a left b right).getInternal (common ++ b :: t) = right.getInternal t := by
  rw [getInternal_splitBranch_under]
  simp

theorem getInternal_splitBranch_other {k : List Nibble} (ha : ∀ s, k ≠ common ++ a :: s)
    (hb : ∀ t, k ≠ common ++ b :: t) :
    (splitBranch common a left b right).getInternal k = .ok none := by
  by_cases hc : common <+: k
  · obtain ⟨k', rfl⟩ := hc
    rw [getInternal_splitBranch_under]
    cases k' with
    | nil => rfl
    | cons j s =>
        have hja : j ≠ a := by
          intro h
          exact ha s (by rw [h])
        have hjb : j ≠ b := by
          intro h
          exact hb s (by rw [h])
        simp [Function.update_of_ne hja, Function.update_of_ne hjb, noChildren]
  · unfold splitBranch
    split
    · exact getInternal_extension_of_not hc _
    · next h => exact absurd (by simp at h; simp [h]) hc

/-- The children of a branch over two nodes. -/
theorem child_of_pair {i : Nibble} {c : MptNode}
    (h : Function.update (Function.update noChildren a (some left)) b (some right) i = some c) :
    (i = a ∧ c = left) ∨ (i = b ∧ c = right) := by
  by_cases hb : i = b
  · subst hb
    rw [Function.update_self] at h
    exact .inr ⟨rfl, (Option.some.inj h).symm⟩
  · rw [Function.update_of_ne hb] at h
    by_cases ha : i = a
    · subst ha
      rw [Function.update_self] at h
      exact .inl ⟨rfl, (Option.some.inj h).symm⟩
    · rw [Function.update_of_ne ha] at h
      cases h

theorem canonical_splitBranch (hne : a ≠ b) (hl : Canonical left) (hr : Canonical right) :
    Canonical (splitBranch common a left b right) := by
  have hbranch : Canonical (.branch
      (Function.update (Function.update noChildren a (some left)) b (some right))) := by
    refine .branch hne (by simp [Function.update_of_ne hne]) (by simp) ?_
    intro i c hc
    rcases child_of_pair hc with ⟨-, rfl⟩ | ⟨-, rfl⟩
    · exact hl
    · exact hr
  unfold splitBranch
  split
  · next h =>
      exact .extension (List.ne_nil_of_length_pos h) (.inl rfl) hbranch
  · exact hbranch

/-- A node whose keys all lie under `common ++ [a]`, split off at another nibble. -/
theorem overwrites_splitBranch {n : MptNode} (hne : a ≠ b)
    (hin : ∀ s, n.getInternal (common ++ a :: s) = left.getInternal s)
    (hout : ∀ k, (∀ s, k ≠ common ++ a :: s) → n.getInternal k = .ok none)
    (t : List Nibble) (value : Bytes) :
    Overwrites n (splitBranch common a left b (.leaf (toEncodedPath t true) value))
      (common ++ b :: t) (some value) := by
  funext k
  by_cases hk : ∃ s, k = common ++ a :: s
  · obtain ⟨s, rfl⟩ := hk
    rw [getInternal_splitBranch_left hne, Function.update_of_ne (by simp [hne]), hin]
  · have ha (s) : k ≠ common ++ a :: s := by
      intro h
      exact hk ⟨s, h⟩
    by_cases hkb : ∃ s, k = common ++ b :: s
    · obtain ⟨s, rfl⟩ := hkb
      rw [getInternal_splitBranch_right, getInternal_leaf]
      by_cases hst : t = s
      · simp [hst]
      · rw [Function.update_of_ne (by simp [Ne.symm hst]), hout _ ha, if_neg hst]
    · have hb (s) : k ≠ common ++ b :: s := by
        intro h
        exact hkb ⟨s, h⟩
      rw [getInternal_splitBranch_other ha hb, Function.update_of_ne (hb t), hout _ ha]

end Split

theorem insertIntoLeaf_same (path old value : Bytes) (ns : List Nibble) :
    insertIntoLeaf path old ns ns value =
      if old = value then (.ok false, .leaf path old) else (.ok true, .leaf path value) := by
  have hl : lcp ns ns = ns.length := by simpa using lcp_append_right ns []
  simp [insertIntoLeaf, hl]

theorem insertIntoLeaf_apart (path old value : Bytes) (c : List Nibble) {a b : Nibble} (h : a ≠ b)
    (s t : List Nibble) :
    insertIntoLeaf path old (c ++ a :: s) (c ++ b :: t) value =
      (.ok true, splitBranch c a (.leaf (toEncodedPath s true) old) b
        (.leaf (toEncodedPath t true) value)) := by
  simp [insertIntoLeaf, lcp_apart c h]

theorem insertIntoLeaf_refused {path old : Bytes} {ns key : List Nibble} (hclash : Clash ns key)
    (hne : ns ≠ key) (value : Bytes) :
    insertIntoLeaf path old ns key value = (.error valueInBranch, .leaf path old) := by
  have hlen : ns.length ≠ key.length := by
    intro hl
    exact hne (hclash.eq_of_length hl)
  rcases hclash with ⟨t, rfl⟩ | ⟨t, rfl⟩
  · rw [insertIntoLeaf, lcp_append_right, if_neg (fun h => hlen h.2), if_pos (.inl rfl)]
  · rw [insertIntoLeaf, lcp_append_left, if_neg (fun h => hlen h.1.symm), if_pos (.inr rfl)]

theorem splitExtension_apart (path value : Bytes) (child : MptNode) (c : List Nibble) {a b : Nibble}
    (h : a ≠ b) (s t : List Nibble) :
    splitExtension path child (c ++ a :: s) (c ++ b :: t) value =
      (.ok true, splitBranch c a
        (if s.length > 0 then .extension (toEncodedPath s false) child else child) b
        (.leaf (toEncodedPath t true) value)) := by
  simp [splitExtension, lcp_apart c h]

theorem insertInternal_isBranch (children : Nibble → Option MptNode) (key : List Nibble)
    (value : Bytes) : ((MptNode.branch children).insertInternal key value).2.isBranch := by
  cases key <;> rfl

/-- The child of a split extension, below the nibble of the split. -/
theorem getInternal_rest (s : List Nibble) (child : MptNode) (k : List Nibble) :
    (if s.length > 0 then .extension (toEncodedPath s false) child else child : MptNode).getInternal
        (s ++ k) = child.getInternal k := by
  split
  · simp
  · next h => simp_all

theorem getInternal_rest_of_not {s k : List Nibble} (child : MptNode) (h : ¬ s <+: k) :
    (if s.length > 0 then .extension (toEncodedPath s false) child else child : MptNode).getInternal
        k = .ok none := by
  split
  · exact getInternal_extension_of_not h child
  · next hs => exact absurd (by simp_all) h

/-- What a successful insertion leaves: a canonical node that says `value` at the key. -/
def Inserted (n : MptNode) (key : List Nibble) (value : Bytes) (o : Option Bytes) : Prop :=
  ∃ m, n.insertInternal key value = (.ok (decide (o ≠ some value)), m) ∧ Canonical m ∧
    Overwrites n m key (some value)

theorem inserted_leaf {ns key : List Nibble} {old : Bytes}
    (hadm : Admits (.leaf (toEncodedPath ns true) old) key) (value : Bytes) :
    Inserted (.leaf (toEncodedPath ns true) old) key value (if ns = key then some old else none) := by
  have hp := prefixNibs_toEncodedPath ns true
  simp only [Inserted, MptNode.insertInternal, hp]
  by_cases hclash : Clash ns key
  · rcases hadm ns (by simp [Live]) hclash with rfl | ⟨f, hf⟩
    · rw [insertIntoLeaf_same]
      refine ⟨.leaf (toEncodedPath ns true) value, ?_, .leaf ns value, ?_⟩
      · split <;> simp_all
      · funext k
        by_cases hk : k = ns
        · simp [hk]
        · simp [Function.update_of_ne hk, Ne.symm hk]
    · simp at hf
  · cases fork ns key with
    | below => exact absurd (.inl (List.prefix_append _ _)) hclash
    | above => exact absurd (.inr (List.prefix_append _ _)) hclash
    | apart c a b s t hne =>
        rw [insertIntoLeaf_apart _ _ _ c hne, if_neg (by simp [hne])]
        refine ⟨_, rfl, canonical_splitBranch hne (.leaf s old) (.leaf t value), ?_⟩
        refine overwrites_splitBranch hne (?_) (?_) t value
        · intro x
          simp
        · intro k hk
          simp [Ne.symm (hk s)]

theorem inserted_split {c s t : List Nibble} {a b : Nibble} {child : MptNode} (hne : a ≠ b)
    (hc : Canonical child) (hkind : child.isBranch ∨ child.isDigest) (value : Bytes) :
    Inserted (.extension (toEncodedPath (c ++ a :: s) false) child) (c ++ b :: t) value none := by
  have hp := prefixNibs_toEncodedPath (c ++ a :: s) false
  have hlen : (c ++ a :: s).length ≠ c.length := by simp
  have hlen' : (c ++ b :: t).length ≠ c.length := by simp
  simp only [Inserted, MptNode.insertInternal, hp, lcp_apart c hne, hlen.symm, hlen'.symm, ↓reduceIte,
    splitExtension_apart _ _ _ c hne]
  refine ⟨_, rfl, canonical_splitBranch hne ?_ (.leaf t value), ?_⟩
  · split
    · next hs => exact .extension (List.ne_nil_of_length_pos hs) hkind hc
    · exact hc
  · refine overwrites_splitBranch hne (?_) (?_) t value
    · intro x
      by_cases hx : s <+: x
      · obtain ⟨y, rfl⟩ := hx
        rw [getInternal_rest, ← List.cons_append, ← List.append_assoc, getInternal_extension_append]
      · rw [getInternal_rest_of_not child hx, getInternal_extension_of_not (by simpa using hx)]
    · intro k hk
      refine getInternal_extension_of_not (?_) child
      intro hpre
      obtain ⟨y, rfl⟩ := hpre
      exact hk (s ++ y) (by simp)

/-- Where a lookup answers, an insertion succeeds and overwrites that answer. -/
theorem Canonical.insertInternal_ok {n : MptNode} (hn : Canonical n) {key : List Nibble}
    (hadm : Admits n key) {o : Option Bytes} (h : n.getInternal key = .ok o) (value : Bytes) :
    Inserted n key value o := by
  induction hn generalizing key with
  | digest d => cases h
  | leaf ns old =>
      rw [getInternal_leaf, Except.ok.injEq] at h
      exact h ▸ inserted_leaf hadm value
  | @branch children i j hne hi hj hc ih =>
      have hcan := Canonical.branch hne hi hj hc
      cases key with
      | nil =>
          obtain ⟨k, hk⟩ := hcan.exists_live
          rcases hadm k hk (clash_nil_left k).symm with rfl | ⟨f, hf⟩
          · exact absurd rfl hk
          · cases hf
      | cons x tail =>
          rw [getInternal_branch_cons] at h
          unfold Inserted
          rw [insertInternal_branch_cons]
          cases hx : children x with
          | none =>
              rw [hx, getChild_none, Except.ok.injEq] at h
              subst h
              refine ⟨_, rfl, canonical_branch_update hcan (.leaf tail value) x, overwrites_branch ?_⟩
              funext s
              by_cases hs : s = tail
              · simp [hs]
              · simp [Function.update, hs, Ne.symm hs, hx]
          | some c =>
              rw [hx, getChild_some] at h
              obtain ⟨m, hm, hmc, hget⟩ := ih x c hx (hadm.child hx) h
              rw [insertChild_some, hm]
              refine ⟨_, rfl, canonical_branch_update hcan hmc x, overwrites_branch ?_⟩
              rw [hx]
              exact hget
  | @extension ns child hns hkind hc ih =>
      cases fork ns key with
      | below _ tail =>
          rw [getInternal_extension_append] at h
          obtain ⟨m, hm, hmc, hget⟩ := ih hadm.below_path h
          have hbranch : m.isBranch := by
            cases child with
            | branch children => simpa [hm] using insertInternal_isBranch children tail value
            | digest d => cases h
            | null | leaf | extension => simp [MptNode.isBranch, MptNode.isDigest] at hkind
          unfold Inserted
          rw [insertInternal_extension_append child (prefixNibs_toEncodedPath ns false), hm]
          exact ⟨_, rfl, .extension hns (.inl hbranch) hmc, overwrites_extension hget ns⟩
      | above _ a t =>
          obtain ⟨k, hk⟩ := (Canonical.extension hns hkind hc).exists_live
          obtain ⟨s, rfl, -⟩ := hk.extends_path
          rcases hadm _ hk (.inr ⟨a :: t ++ s, by simp⟩) with heq | ⟨f, hf⟩
          · simp at heq
          · rw [h] at hf
            cases hf
      | apart c a b s t hne =>
          rw [getInternal_extension_of_not (by simp [hne]), Except.ok.injEq] at h
          exact h ▸ inserted_split hne hc hkind value

theorem CanonicalTrie.insertInternal_ok {n : MptNode} (hn : CanonicalTrie n) {key : List Nibble}
    (hadm : Admits n key) {o : Option Bytes} (h : n.getInternal key = .ok o) (value : Bytes) :
    Inserted n key value o := by
  rcases hn with rfl | hn
  · cases h
    refine ⟨_, rfl, .leaf key value, ?_⟩
    funext k
    by_cases hk : k = key
    · simp [hk]
    · simp [Function.update_of_ne hk, Ne.symm hk]
  · exact hn.insertInternal_ok hadm h value

/-- An insertion that returns `Ok(false)` leaves the trie as it was. -/
theorem CanonicalTrie.insertInternal_same {n : MptNode} (hn : CanonicalTrie n) {key : List Nibble}
    (hadm : Admits n key) {value : Bytes} (h : n.getInternal key = .ok (some value)) :
    n.insertInternal key value = (.ok false, n) := by
  obtain ⟨m, hm, hmc, hget⟩ := hn.insertInternal_ok hadm h value
  have hview : m.getInternal = n.getInternal := by rw [hget, ← h, Function.update_eq_self]
  rw [hm, CanonicalTrie.ext_view (.inr hmc) hn fun key => congrFun hview key]
  simp

/-- Where a lookup answers but a key stands in the way, an insertion is refused and changes nothing. -/
theorem Canonical.insertInternal_refused {n : MptNode} (hn : Canonical n) {key : List Nibble} {o : Option Bytes}
    (h : n.getInternal key = .ok o) (hadm : ¬ Admits n key) (value : Bytes) :
    n.insertInternal key value = (.error valueInBranch, n) := by
  induction hn generalizing key with
  | digest d => cases h
  | leaf ns old =>
      have hclash : Clash ns key ∧ ns ≠ key := by
        by_contra hno
        refine hadm fun k hk hclash => ?_
        obtain rfl := hk.leaf_path
        exact .inl (not_not.mp fun hne => hno ⟨hclash, hne⟩)
      simp only [MptNode.insertInternal, prefixNibs_toEncodedPath, insertIntoLeaf_refused hclash.1 hclash.2]
  | @branch children i j hne hi hj hc ih =>
      cases key with
      | nil => rfl
      | cons x tail =>
          obtain ⟨c, hx, hrefused⟩ : ∃ c, children x = some c ∧ ¬ Admits c tail := by
            by_contra hno
            refine hadm (Admits.of_child fun c hx => ?_)
            exact not_not.mp fun hc => hno ⟨c, hx, hc⟩
          rw [getInternal_branch_cons, hx, getChild_some] at h
          rw [insertInternal_branch_cons, hx, insertChild_some, ih x c hx h hrefused]
          simp [← hx]
  | @extension ns child hns hkind hc ih =>
      cases fork ns key with
      | below _ tail =>
          rw [getInternal_extension_append] at h
          rw [insertInternal_extension_append child (prefixNibs_toEncodedPath ns false),
            ih h fun hc => hadm hc.of_below_path]
      | above _ a t => simp [MptNode.insertInternal]
      | apart c a b s t hne => exact absurd (admits_apart hne child) hadm

/-- A key that is inserted is one that no key of the trie stands in the way of. -/
theorem Canonical.admits_of_insert {n m : MptNode} (hn : Canonical n) {key : List Nibble} {value : Bytes}
    {b : Bool} (h : n.insertInternal key value = (.ok b, m)) : Admits n key := by
  by_contra hadm
  cases hget : n.getInternal key with
  | error f =>
      rw [insertInternal_error hget] at h
      cases h
  | ok o =>
      rw [hn.insertInternal_refused hget hadm] at h
      cases h

theorem admits_null (key : List Nibble) : Admits .null key := by
  intro k hk
  exact absurd rfl hk

theorem CanonicalTrie.insertInternal_refused {n : MptNode} (hn : CanonicalTrie n) {key : List Nibble}
    {o : Option Bytes} (h : n.getInternal key = .ok o) (hadm : ¬ Admits n key) (value : Bytes) :
    n.insertInternal key value = (.error valueInBranch, n) := by
  rcases hn with rfl | hn
  · exact absurd (admits_null key) hadm
  · exact hn.insertInternal_refused h hadm value

theorem CanonicalTrie.admits_of_insert {n m : MptNode} (hn : CanonicalTrie n) {key : List Nibble}
    {value : Bytes} {b : Bool} (h : n.insertInternal key value = (.ok b, m)) : Admits n key := by
  rcases hn with rfl | hn
  · exact admits_null key
  · exact hn.admits_of_insert h

/-- An insertion that does not return `Ok(true)` leaves the trie as it was. -/
theorem CanonicalTrie.insertInternal_unchanged {n : MptNode} (hn : CanonicalTrie n) (key : List Nibble)
    (value : Bytes) (h : (n.insertInternal key value).1 ≠ .ok true) : (n.insertInternal key value).2 = n := by
  cases hget : n.getInternal key with
  | error f => rw [insertInternal_error hget]
  | ok o =>
      by_cases hadm : Admits n key
      · obtain ⟨m, hm, -⟩ := hn.insertInternal_ok hadm hget value
        rw [hm] at h
        have ho : o = some value := by
          by_contra hne
          exact h (congrArg Except.ok (decide_eq_true hne))
        rw [hn.insertInternal_same hadm (hget.trans (congrArg _ ho))]
      · rw [hn.insertInternal_refused hget hadm]

end RethProcessor
