import RethProcessor.TrieDecode
import Mathlib.Data.Set.Function

/-! What a root hash commits to. The encoding of a node does not say whether its path is a
leaf's or an extension's but for the flag of the path, which lookups do not look at. -/
namespace RethProcessor
open Paths Rlp

/-- A node and the nodes below it. -/
inductive Subnode : MptNode → MptNode → Prop
  | refl (n : MptNode) : Subnode n n
  | branch {m c : MptNode} {children : Nibble → Option MptNode} {i : Nibble} :
      children i = some c → Subnode m c → Subnode m (.branch children)
  | extension {m c : MptNode} (path : Bytes) : Subnode m c → Subnode m (.extension path c)

/-- The encodings that are hashed, or could be, in computing the hash of a node. -/
def encodings (keccak : Bytes → B256) (n : MptNode) : Set Bytes :=
  {e | ∃ m, Subnode m n ∧ m.isListed ∧ m.encode keccak = e}

/-- Encodings have lengths that fit a `usize`. -/
def Addressable (keccak : Bytes → B256) (n : MptNode) : Prop :=
  ∀ e ∈ encodings keccak n, e.length < usizeLimit

/-- The trie has a leaf with this value at the end of the key. -/
inductive Stores : MptNode → List Nibble → Bytes → Prop
  | leaf {path value : Bytes} {ns : List Nibble} : prefixNibs path = .ok ns →
      Stores (.leaf path value) ns value
  | branch {children : Nibble → Option MptNode} {i : Nibble} {c : MptNode} {key : List Nibble}
      {value : Bytes} : children i = some c → Stores c key value →
      Stores (.branch children) (i :: key) value
  | extension {path : Bytes} {ns key : List Nibble} {c : MptNode} {value : Bytes} :
      prefixNibs path = .ok ns → Stores c key value → Stores (.extension path c) (ns ++ key) value

/-- At its end a key finds something other than the value, or nothing at all. -/
inductive Speaks : MptNode → Bytes → Prop
  | null (value : Bytes) : Speaks .null value
  | branch (children : Nibble → Option MptNode) (value : Bytes) : Speaks (.branch children) value
  | other {path v value : Bytes} : prefixNibs path = .ok [] → v ≠ value → Speaks (.leaf path v) value
  | leaf {path : Bytes} {ns : List Nibble} (v value : Bytes) : prefixNibs path = .ok ns → ns ≠ [] →
      Speaks (.leaf path v) value
  | through {path value : Bytes} {c : MptNode} : prefixNibs path = .ok [] → Speaks c value →
      Speaks (.extension path c) value
  | extension {path : Bytes} {ns : List Nibble} (c : MptNode) (value : Bytes) :
      prefixNibs path = .ok ns → ns ≠ [] → Speaks (.extension path c) value

/-- The key runs into a node whose kind is not the one its path is flagged with: a leaf
flagged as an extension, or an extension flagged as a leaf whose child speaks for the key. -/
inductive Misread : MptNode → List Nibble → Bytes → Prop
  | branch {children : Nibble → Option MptNode} {i : Nibble} {c : MptNode} {key : List Nibble}
      {value : Bytes} : children i = some c → Misread c key value →
      Misread (.branch children) (i :: key) value
  | extension {path : Bytes} {ns key : List Nibble} {c : MptNode} {value : Bytes} :
      prefixNibs path = .ok ns → leafFlag path = false → Misread c key value →
      Misread (.extension path c) (ns ++ key) value
  | leaf {path : Bytes} {ns key : List Nibble} (v value : Bytes) : prefixNibs path = .ok ns →
      leafFlag path = false → ns ≠ key → Misread (.leaf path v) key value
  | flagged {path : Bytes} {key : List Nibble} {c : MptNode} {value : Bytes} :
      prefixNibs path = .ok key → leafFlag path = true → Speaks c value →
      Misread (.extension path c) key value

theorem Stores.getInternal {n : MptNode} {key : List Nibble} {value : Bytes} (h : Stores n key value) :
    n.getInternal key = .ok (some value) := by
  induction h with
  | leaf hp => simp [MptNode.getInternal, hp]
  | branch hc _ ih => simpa [hc] using ih
  | extension hp _ ih => simpa [MptNode.getInternal, hp] using ih

theorem stores_of_getInternal {n : MptNode} {key : List Nibble} {value : Bytes}
    (h : n.getInternal key = .ok (some value)) : Stores n key value := by
  induction n generalizing key with
  | null | digest => cases h
  | branch children ih =>
      cases key with
      | nil => simp at h
      | cons i tail =>
          rw [getInternal_branch_cons] at h
          cases hc : children i with
          | none => simp [hc] at h
          | some c => exact .branch hc (ih i c hc (by simpa [hc] using h))
  | leaf path v =>
      cases hp : prefixNibs path with
      | error f => simp [MptNode.getInternal, hp] at h
      | ok ns =>
          simp only [MptNode.getInternal, hp, Except.ok.injEq, Option.ite_none_right_eq_some,
            Option.some.injEq] at h
          obtain ⟨rfl, rfl⟩ := h
          exact .leaf hp
  | extension path child ih =>
      cases hp : prefixNibs path with
      | error f => simp [MptNode.getInternal, hp] at h
      | ok ns =>
          by_cases hpre : ns <+: key
          · obtain ⟨tail, rfl⟩ := hpre
            exact .extension hp (ih (by simpa [MptNode.getInternal, hp] using h))
          · simp [MptNode.getInternal, hp, isPrefixOf?_eq_none hpre] at h

theorem Speaks.getInternal {n : MptNode} {value : Bytes} (h : Speaks n value) :
    ∃ a, n.getInternal [] = .ok a ∧ a ≠ some value := by
  induction h with
  | null | branch => exact ⟨none, rfl, by simp⟩
  | @other path v value hp hv => exact ⟨some v, by simp [MptNode.getInternal, hp], by simpa using hv⟩
  | leaf v value hp hns => exact ⟨none, by simp [MptNode.getInternal, hp, hns], by simp⟩
  | through hp _ ih =>
      obtain ⟨a, ha, hne⟩ := ih
      exact ⟨a, by simpa [MptNode.getInternal, hp] using ha, hne⟩
  | extension c value hp hns =>
      exact ⟨none, by simp [MptNode.getInternal, hp, isPrefixOf?_eq_none (fun h => hns (List.prefix_nil.mp h))],
        by simp⟩

theorem speaks_of_getInternal {n : MptNode} {value : Bytes} {a : Option Bytes}
    (h : n.getInternal [] = .ok a) (hne : a ≠ some value) : Speaks n value := by
  induction n with
  | null => exact .null value
  | branch children => exact .branch children value
  | digest d => cases h
  | leaf path v =>
      cases hp : prefixNibs path with
      | error f => simp [MptNode.getInternal, hp] at h
      | ok ns =>
          by_cases hns : ns = []
          · subst hns
            have ha : some v = a := by simpa [MptNode.getInternal, hp] using h
            exact .other hp fun hv => hne (by rw [← ha, hv])
          · exact .leaf v value hp hns
  | extension path child ih =>
      cases hp : prefixNibs path with
      | error f => simp [MptNode.getInternal, hp] at h
      | ok ns =>
          by_cases hns : ns = []
          · subst hns
            exact .through hp (ih (by simpa [MptNode.getInternal, hp] using h))
          · exact .extension child value hp hns

/-- A misread key is answered, and not by the value. -/
theorem Misread.getInternal {n : MptNode} {key : List Nibble} {value : Bytes} (h : Misread n key value) :
    ∃ a, n.getInternal key = .ok a ∧ a ≠ some value := by
  induction h with
  | branch hc _ ih => simpa [hc] using ih
  | extension hp _ _ ih => simpa [MptNode.getInternal, hp] using ih
  | leaf v value hp _ hne => exact ⟨none, by simp [MptNode.getInternal, hp, hne], by simp⟩
  | @flagged path key c value hp _ hs =>
      obtain ⟨a, ha, hne⟩ := hs.getInternal
      exact ⟨a, by simpa [MptNode.getInternal, hp] using ha, hne⟩

section Encodings
variable {keccak : Bytes → B256}

theorem Subnode.trans {a b c : MptNode} (hab : Subnode a b) (hbc : Subnode b c) : Subnode a c := by
  induction hbc with
  | refl => exact hab
  | branch hc _ ih => exact .branch hc ih
  | extension path _ ih => exact .extension path ih

theorem encodings_mono {m n : MptNode} (h : Subnode m n) : encodings keccak m ⊆ encodings keccak n := by
  rintro e ⟨k, hk, hl, he⟩
  exact ⟨k, hk.trans h, hl, he⟩

theorem encode_mem {n : MptNode} (h : n.isListed) : n.encode keccak ∈ encodings keccak n :=
  ⟨n, .refl n, h, rfl⟩

theorem Addressable.child {m n : MptNode} (hn : Addressable keccak n) (h : Subnode m n) :
    Addressable keccak m := fun e he => hn e (encodings_mono h he)

/-- A list does not begin as the encoding of a digest, or of nothing, does. -/
theorem encode_ne_encode_digest {n : MptNode} (hl : n.isListed)
    (hlen : (n.encode keccak).length < usizeLimit) (d : B256) :
    n.encode keccak ≠ (MptNodeReference.digest d).encode := by
  intro h
  have hp := prototype_encode_list hl hlen
  rw [h, prototype_digest] at hp
  cases hp

theorem encode_ne_empty {n : MptNode} (hl : n.isListed)
    (hlen : (n.encode keccak).length < usizeLimit) : n.encode keccak ≠ [EMPTY_STRING_CODE] := by
  intro h
  have hp := prototype_encode_list hl hlen
  have he : prototype [EMPTY_STRING_CODE] = .data 0 := prototype_encodeString [] (by decide)
  rw [h, he] at hp
  cases hp

theorem encode_digest_ne_empty (d : B256) : (MptNodeReference.digest d).encode ≠ [EMPTY_STRING_CODE] := by
  intro h
  have := congrArg List.length h
  simp [MptNodeReference.encode, d.length_eq] at this

theorem encode_digest_inj {d e : B256}
    (h : (MptNodeReference.digest d).encode = (MptNodeReference.digest e).encode) : d = e := by
  simp only [MptNodeReference.encode, List.cons.injEq, true_and] at h
  exact B256.ext h

/-- No two of the encodings of the nodes and of the empty trie have the same digest. -/
def CollisionFree (keccak : Bytes → B256) (n m : MptNode) : Prop :=
  Set.InjOn keccak (insert [EMPTY_STRING_CODE] (encodings keccak n ∪ encodings keccak m))

theorem CollisionFree.sub {n m n' m' : MptNode} (h : CollisionFree keccak n m) (hn : Subnode n' n)
    (hm : Subnode m' m) : CollisionFree keccak n' m' :=
  Set.InjOn.mono (Set.insert_subset_insert
    (Set.union_subset_union (encodings_mono hn) (encodings_mono hm))) h

/-- Only the empty node is referenced as the empty string. -/
theorem reference_ne_empty {n : MptNode} (h : n ≠ .null) :
    (n.reference keccak).encode ≠ [EMPTY_STRING_CODE] := by
  cases hl : n.isListed with
  | false =>
      cases n with
      | null => exact absurd rfl h
      | digest d => exact encode_digest_ne_empty d
      | branch | leaf | extension => cases hl
  | true =>
      rw [reference_of_isListed hl]
      split
      · next hlt => exact encode_ne_empty hl (Nat.lt_trans hlt (by decide))
      · exact encode_digest_ne_empty _

/-- What a list node is referenced as, a digest or a list node with its encoding. -/
theorem match_of_reference {n m : MptNode} (hl : n.isListed) (hlen : Addressable keccak n)
    (hfree : CollisionFree keccak n m)
    (h : (n.reference keccak).encode = (m.reference keccak).encode) :
    m.isDigest ∨ (m.isListed ∧ n.encode keccak = m.encode keccak) := by
  have hn := hlen _ (encode_mem hl)
  have hne : n ≠ .null := by
    rintro rfl
    cases hl
  cases hm : m.isListed with
  | false =>
      cases m with
      | digest d => exact .inl rfl
      | null => exact absurd h (reference_ne_empty hne)
      | branch | leaf | extension => cases hm
  | true =>
      refine .inr ⟨rfl, ?_⟩
      rw [reference_of_isListed hl, reference_of_isListed hm] at h
      split at h
      · split at h
        · exact h
        · exact absurd h (encode_ne_encode_digest hl hn _)
      · split at h
        · next hlt =>
            exact absurd h.symm (encode_ne_encode_digest hm (Nat.lt_trans hlt (by decide)) _)
        · exact hfree (.inr (.inl (encode_mem hl))) (.inr (.inr (encode_mem hm))) (encode_digest_inj h)

theorem items_eq {n m : MptNode} (hn : n.isListed) (hm : m.isListed) (hlen : Addressable keccak n)
    (h : n.encode keccak = m.encode keccak) : n.items keccak = m.items keccak := by
  have hn' := hlen _ (encode_mem hn)
  have hm' := hn'
  rw [h] at hm'
  rw [encode_of_isListed hn, encode_of_isListed hm] at h
  exact encodeList_inj (isItem_items hn') (isItem_items hm') (flatten_items_lt hn' hn)
    (flatten_items_lt hm' hm) h

theorem encodeString_inj {s t : Bytes} (hs : s.length < usizeLimit) (ht : t.length < usizeLimit)
    (h : encodeString s = encodeString t) : s = t := by
  have h' := decodeValue_encodeString s hs
  rw [h, decodeValue_encodeString t ht] at h'
  exact (Except.ok.inj h').symm

theorem hash_of_isListed {n : MptNode} (h : n.isListed) :
    n.hash keccak = keccak (n.encode keccak) := by
  have hne : n ≠ .null := by
    rintro rfl
    cases h
  rw [hash_of_ne_null hne, reference_of_isListed h]
  split <;> rfl

theorem string_item_lt {n : MptNode} (hl : n.isListed) (hlen : (n.encode keccak).length < usizeLimit)
    {t : Bytes} (ht : encodeString t ∈ n.items keccak) : t.length < usizeLimit :=
  length_lt_of_encodeString (Nat.lt_trans (item_length_lt hl ht) hlen)

/-- A string at the same place in two lists with the same items is the same string. -/
theorem string_item_eq {n m : MptNode} (hn : n.isListed) (hm : m.isListed)
    (hlen : Addressable keccak n) (h : n.encode keccak = m.encode keccak) {t u : Bytes}
    (ht : encodeString t ∈ n.items keccak) (hu : encodeString u ∈ m.items keccak)
    (htu : encodeString t = encodeString u) : t = u := by
  have hn' := hlen _ (encode_mem hn)
  have hm' := hn'
  rw [h] at hm'
  exact encodeString_inj (string_item_lt hn hn' ht) (string_item_lt hm hm' hu) htu

/-- The encoding of a leaf is that of the same leaf, or of an extension with the leaf's path. -/
theorem leaf_match {path value : Bytes} {m : MptNode} (hm : m.isListed)
    (hlen : Addressable keccak (.leaf path value))
    (h : (MptNode.leaf path value).encode keccak = m.encode keccak) :
    m = .leaf path value ∨ ∃ c, m = .extension path c := by
  have hitems := items_eq rfl hm hlen h
  have hstr {t u : Bytes} := @string_item_eq keccak (.leaf path value) m rfl hm hlen h t u
  cases m with
  | null | digest => cases hm
  | branch children => simpa [MptNode.items] using congrArg List.length hitems
  | leaf p v =>
      simp only [MptNode.items, List.cons.injEq, and_true] at hitems
      obtain rfl := hstr (by simp [MptNode.items]) (by simp [MptNode.items]) hitems.1
      obtain rfl := hstr (by simp [MptNode.items]) (by simp [MptNode.items]) hitems.2
      exact .inl rfl
  | extension p c =>
      simp only [MptNode.items, List.cons.injEq, and_true] at hitems
      obtain rfl := hstr (by simp [MptNode.items]) (by simp [MptNode.items]) hitems.1
      exact .inr ⟨c, rfl⟩

/-- The encoding of an extension is that of a leaf or an extension with the same path. -/
theorem extension_match {path : Bytes} {child m : MptNode} (hm : m.isListed)
    (hlen : Addressable keccak (.extension path child))
    (h : (MptNode.extension path child).encode keccak = m.encode keccak) :
    (∃ v, m = .leaf path v) ∨ ∃ c, m = .extension path c ∧
      (child.reference keccak).encode = (c.reference keccak).encode := by
  have hitems := items_eq rfl hm hlen h
  have hstr {t u : Bytes} := @string_item_eq keccak (.extension path child) m rfl hm hlen h t u
  cases m with
  | null | digest => cases hm
  | branch children => simpa [MptNode.items] using congrArg List.length hitems
  | leaf p v =>
      simp only [MptNode.items, List.cons.injEq, and_true] at hitems
      obtain rfl := hstr (by simp [MptNode.items]) (by simp [MptNode.items]) hitems.1
      exact .inl ⟨v, rfl⟩
  | extension p c =>
      simp only [MptNode.items, List.cons.injEq, and_true] at hitems
      obtain rfl := hstr (by simp [MptNode.items]) (by simp [MptNode.items]) hitems.1
      exact .inr ⟨c, rfl, hitems.2⟩

/-- The encoding of a branch is that of a branch with the same references. -/
theorem branch_match {children : Nibble → Option MptNode} {m : MptNode} (hm : m.isListed)
    (hlen : Addressable keccak (.branch children))
    (h : (MptNode.branch children).encode keccak = m.encode keccak) :
    ∃ others, m = .branch others ∧ ∀ i,
      (children i).elim [EMPTY_STRING_CODE] (fun node => (node.reference keccak).encode) =
        (others i).elim [EMPTY_STRING_CODE] fun node => (node.reference keccak).encode := by
  have hitems := items_eq rfl hm hlen h
  cases m with
  | null | digest => cases hm
  | leaf | extension => simpa [MptNode.items] using congrArg List.length hitems
  | branch others =>
      refine ⟨others, rfl, ?_⟩
      intro i
      simp only [MptNode.items, List.append_cancel_right_eq] at hitems
      exact (List.map_inj_left.mp hitems) i (List.mem_finRange i)

/-- What is referenced as the empty node is the empty node. -/
theorem eq_null_of_reference {n : MptNode} (h : [EMPTY_STRING_CODE] = (n.reference keccak).encode) : n = .null := by
  by_contra hne
  exact reference_ne_empty hne h.symm

/-- At a place of two branches with the same references either nothing is found in both, or
there are two children with one reference. -/
theorem place_match {o o' : Option MptNode}
    (h : o.elim [EMPTY_STRING_CODE] (fun node => (node.reference keccak).encode) =
      o'.elim [EMPTY_STRING_CODE] fun node => (node.reference keccak).encode) :
    (∀ key, getChild o key = .ok none ∧ getChild o' key = .ok none) ∨
      ∃ t c, o = some t ∧ o' = some c ∧ (t.reference keccak).encode = (c.reference keccak).encode := by
  cases o with
  | none =>
      cases o' with
      | none => exact .inl fun key => ⟨rfl, rfl⟩
      | some c =>
          obtain rfl := eq_null_of_reference h
          exact .inl fun key => ⟨rfl, rfl⟩
  | some t =>
      cases o' with
      | none =>
          obtain rfl := eq_null_of_reference h.symm
          exact .inl fun key => ⟨rfl, rfl⟩
      | some c => exact .inr ⟨t, c, rfl, rfl, h⟩

theorem isDigest_of_answer {n : MptNode} {key : List Nibble} {a : Option Bytes} (h : n.getInternal key = .ok a) :
    n.isDigest = false := by
  cases n with
  | digest d => cases h
  | null | branch | leaf | extension => rfl

theorem Full.isListed {n : MptNode} (h : Full n) : n.isListed := by
  cases h <;> rfl

theorem Full.isDigest {n : MptNode} (h : Full n) : n.isDigest = false := by
  cases h <;> rfl

/-- Where all keys of an extension are of one length, its path is shorter. -/
theorem Full.path_ne {ns key : List Nibble} {child : MptNode} (hc : Full child) (hkind : child.isBranch)
    (hdepth : ∀ k, Live (.extension (toEncodedPath ns false) child) k → k.length = key.length) : ns ≠ key := by
  rintro rfl
  cases hc with
  | leaf | extension => cases hkind
  | branch hij hi hj hall =>
      obtain ⟨i, j, s, t, -, hs, -⟩ := (Full.branch hij hi hj hall).canonical.branch_live
      have := hdepth (ns ++ i :: s) (by simpa [Live] using hs)
      simp at this

/-- What a leaf is matched with answers as the leaf, unless it is misread. -/
theorem lookup_match_leaf {ns key : List Nibble} {value : Bytes} {m : MptNode} (hm : m.isListed)
    (hlen : Addressable keccak (.leaf (toEncodedPath ns true) value))
    (henc : (MptNode.leaf (toEncodedPath ns true) value).encode keccak = m.encode keccak)
    (hdepth : ns.length = key.length)
    (hread : ∀ v, Stores (.leaf (toEncodedPath ns true) value) key v → ¬ Misread m key v) {a : Option Bytes}
    (h : m.getInternal key = .ok a) : (MptNode.leaf (toEncodedPath ns true) value).getInternal key = .ok a := by
  rcases leaf_match hm hlen henc with rfl | ⟨c, rfl⟩
  · exact h
  · have hp := prefixNibs_toEncodedPath ns true
    by_cases hpre : ns <+: key
    · obtain rfl : ns = key := hpre.eq_of_length hdepth
      rw [getInternal_leaf, if_pos rfl, Except.ok.injEq]
      have hc : c.getInternal [] = .ok a := by simpa [MptNode.getInternal, hp] using h
      by_contra hne
      exact hread value (.leaf hp)
        (.flagged hp (leafFlag_toEncodedPath ns true) (speaks_of_getInternal hc (Ne.symm hne)))
    · have hne : ns ≠ key := by
        rintro rfl
        exact hpre (List.prefix_refl ns)
      rw [getInternal_leaf, if_neg hne]
      simpa [MptNode.getInternal, hp, isPrefixOf?_eq_none hpre] using h

/-- Behind equal encodings, a lookup that is not misread fails or returns what is stored. -/
theorem Full.lookup_match {n : MptNode} (hn : Full n) {m : MptNode} {key : List Nibble}
    (hm : m.isListed) (hlen : Addressable keccak n) (hfree : CollisionFree keccak n m)
    (henc : n.encode keccak = m.encode keccak) (hdepth : ∀ k, Live n k → k.length = key.length)
    (hread : ∀ value, Stores n key value → ¬ Misread m key value) {a : Option Bytes}
    (h : m.getInternal key = .ok a) : n.getInternal key = .ok a := by
  induction hn generalizing m key with
  | leaf ns value => exact lookup_match_leaf hm hlen henc (hdepth ns (by simp [Live])) hread h
  | @branch children i j hij hi hj hall ih =>
      obtain ⟨others, rfl, hitems⟩ := branch_match hm hlen henc
      cases key with
      | nil => exact h
      | cons x tail =>
          rw [getInternal_branch_cons] at h ⊢
          rcases place_match (hitems x) with hnone | ⟨t, c, hc, ho, hx⟩
          · rw [(hnone tail).2] at h
            rw [(hnone tail).1]
            exact h
          · rw [ho, getChild_some] at h
            rw [hc, getChild_some]
            have hsub : Subnode t (.branch children) := .branch hc (.refl t)
            have hsub' : Subnode c (.branch others) := .branch ho (.refl c)
            rcases match_of_reference (hall x t hc).isListed (hlen.child hsub) (hfree.sub hsub hsub') hx
              with hd | ⟨hcl, hce⟩
            · rw [isDigest_of_answer h] at hd
              cases hd
            · refine ih x t hc hcl (hlen.child hsub) (hfree.sub hsub hsub') hce (fun k hk => ?_)
                (fun v hv hmis => hread v (.branch hc hv) (.branch ho hmis)) h
              have := hdepth (x :: k) (by simpa [Live, hc] using hk)
              simpa using this
  | @extension ns child hns hkind hc ih =>
      have hp := prefixNibs_toEncodedPath ns false
      rcases extension_match hm hlen henc with ⟨v, rfl⟩ | ⟨c, rfl, href⟩
      · -- a leaf flagged as an extension: its path is too short to be the rest of the key
        have hshort : ns ≠ key := hc.path_ne hkind hdepth
        have ha : a = none := by simpa [MptNode.getInternal, hp, hshort, eq_comm] using h
        obtain ⟨o, ho⟩ := (Full.extension hns hkind hc).answers key
        cases o with
        | none => rw [ho, ha]
        | some value =>
            exact absurd (.leaf v value hp (leafFlag_toEncodedPath ns false) hshort)
              (hread value (stores_of_getInternal ho))
      · by_cases hpre : ns <+: key
        · obtain ⟨tail, rfl⟩ := hpre
          rw [getInternal_extension_append] at h ⊢
          have hsub : Subnode child (.extension (toEncodedPath ns false) child) := .extension _ (.refl child)
          have hsub' : Subnode c (.extension (toEncodedPath ns false) c) := .extension _ (.refl c)
          rcases match_of_reference hc.isListed (hlen.child hsub) (hfree.sub hsub hsub') href
            with hd | ⟨hcl, hce⟩
          · rw [isDigest_of_answer h] at hd
            cases hd
          · refine ih hcl (hlen.child hsub) (hfree.sub hsub hsub') hce (fun k hk => ?_)
              (fun v hv hmis => hread v (.extension hp hv)
                (.extension hp (leafFlag_toEncodedPath ns false) hmis)) h
            have := hdepth (ns ++ k) (by simpa [Live] using hk)
            simpa using this
        · rw [getInternal_extension_of_not hpre] at h ⊢
          exact h

/-- Two nodes with one hash have one encoding, or one of them is a digest, or both are empty. -/
theorem encode_of_hash {n m : MptNode} (hn : n.isDigest = false) (hlen : Addressable keccak n)
    (hfree : CollisionFree keccak n m) (hempty : keccak [EMPTY_STRING_CODE] = EMPTY_ROOT)
    (h : n.hash keccak = m.hash keccak) : m.isDigest ∨ (n = .null ∧ m = .null) ∨
      (n.isListed ∧ m.isListed ∧ n.encode keccak = m.encode keccak) := by
  cases hm : m.isListed with
  | false =>
      cases m with
      | digest d => exact .inl rfl
      | null =>
          cases hl : n.isListed with
          | false =>
              cases n with
              | null => exact .inr (.inl ⟨rfl, rfl⟩)
              | digest d => cases hn
              | branch | leaf | extension => cases hl
          | true =>
              rw [hash_of_isListed hl, MptNode.hash, ← hempty] at h
              have := hfree (.inr (.inl (encode_mem hl))) (.inl rfl) h
              exact absurd this (encode_ne_empty hl (hlen _ (encode_mem hl)))
      | branch | leaf | extension => cases hm
  | true =>
      rw [hash_of_isListed hm] at h
      cases hl : n.isListed with
      | false =>
          cases n with
          | null =>
              rw [MptNode.hash, ← hempty] at h
              have := hfree (.inl rfl) (.inr (.inr (encode_mem hm))) h
              have hshort : (m.encode keccak).length < usizeLimit := by
                rw [← this]
                decide
              exact absurd this.symm (encode_ne_empty hm hshort)
          | digest d => cases hn
          | branch | leaf | extension => cases hl
      | true =>
          rw [hash_of_isListed hl] at h
          exact .inr (.inr ⟨rfl, rfl, hfree (.inr (.inl (encode_mem hl))) (.inr (.inr (encode_mem hm))) h⟩)

theorem FullTrie.not_isDigest {n : MptNode} (hn : FullTrie n) : n.isDigest = false := by
  rcases hn with rfl | hn
  · rfl
  · exact hn.isDigest

theorem FullTrie.full_of_isListed {n : MptNode} (hn : FullTrie n) (hl : n.isListed) : Full n := by
  rcases hn with rfl | hn
  · cases hl
  · exact hn

/-- Full nodes are determined by their encodings: each path has the flag of its node's kind. -/
theorem Full.eq_of_encode {n m : MptNode} (hn : Full n) (hm : Full m) (hlen : Addressable keccak n)
    (hfree : CollisionFree keccak n m) (henc : n.encode keccak = m.encode keccak) : n = m := by
  induction hn generalizing m with
  | leaf ns value =>
      rcases leaf_match hm.isListed hlen henc with rfl | ⟨c, rfl⟩
      · rfl
      · generalize hp : toEncodedPath ns true = path at hm
        cases hm with
        | extension =>
            have := congrArg leafFlag hp
            rw [leafFlag_toEncodedPath, leafFlag_toEncodedPath] at this
            cases this
  | @extension ns child hns hkind hc ih =>
      rcases extension_match hm.isListed hlen henc with ⟨v, rfl⟩ | ⟨c, rfl, href⟩
      · generalize hp : toEncodedPath ns false = path at hm
        cases hm with
        | leaf =>
            have := congrArg leafFlag hp
            rw [leafFlag_toEncodedPath, leafFlag_toEncodedPath] at this
            cases this
      · have hsub : Subnode child (.extension (toEncodedPath ns false) child) := .extension _ (.refl child)
        have hsub' : Subnode c (.extension (toEncodedPath ns false) c) := .extension _ (.refl c)
        have hcf : Full c := by
          generalize hp : toEncodedPath ns false = path at hm
          cases hm with
          | extension _ _ hcf => exact hcf
        rcases match_of_reference hc.isListed (hlen.child hsub) (hfree.sub hsub hsub') href with hd | ⟨-, hce⟩
        · rw [hcf.isDigest] at hd
          cases hd
        · rw [ih hcf (hlen.child hsub) (hfree.sub hsub hsub') hce]
  | @branch children i j hij hi hj hall ih =>
      obtain ⟨others, rfl, hitems⟩ := branch_match hm.isListed hlen henc
      have hothers : ∀ x c, others x = some c → Full c := by
        cases hm with
        | branch _ _ _ hothers => exact hothers
      rw [MptNode.branch.injEq]
      funext x
      have hx := hitems x
      cases hc : children x with
      | none =>
          cases ho : others x with
          | none => rfl
          | some c =>
              rw [hc, ho, Option.elim_none, Option.elim_some] at hx
              exact absurd hx.symm (reference_ne_empty (hothers x c ho).canonical.ne_null)
      | some t =>
          have ht := hall x t hc
          cases ho : others x with
          | none =>
              rw [hc, ho, Option.elim_none, Option.elim_some] at hx
              exact absurd hx (reference_ne_empty ht.canonical.ne_null)
          | some c =>
              rw [hc, ho, Option.elim_some, Option.elim_some] at hx
              have hsub : Subnode t (.branch children) := .branch hc (.refl t)
              have hsub' : Subnode c (.branch others) := .branch ho (.refl c)
              rcases match_of_reference ht.isListed (hlen.child hsub) (hfree.sub hsub hsub') hx with hd | ⟨-, hce⟩
              · rw [(hothers x c ho).isDigest] at hd
                cases hd
              · rw [ih x t hc (hothers x c ho) (hlen.child hsub) (hfree.sub hsub hsub') hce]

/-- Full tries are determined by their hashes. -/
theorem FullTrie.eq_of_hash {n m : MptNode} (hn : FullTrie n) (hm : FullTrie m)
    (hlen : Addressable keccak n) (hfree : CollisionFree keccak n m)
    (hempty : keccak [EMPTY_STRING_CODE] = EMPTY_ROOT) (h : n.hash keccak = m.hash keccak) : n = m := by
  rcases encode_of_hash hn.not_isDigest hlen hfree hempty h with hd | ⟨rfl, rfl⟩ | ⟨hnl, hl, henc⟩
  · rw [hm.not_isDigest] at hd
    cases hd
  · rfl
  · exact (hn.full_of_isListed hnl).eq_of_encode (hm.full_of_isListed hl) hlen hfree henc

/-- A node with the hash of a full trie over 32-byte keys answers a key as the trie does,
or not at all, exactly when no node on the way of a stored key is misread. -/
theorem get_of_hash_iff {t₁ t₂ : MptNode} (ht : FullTrieOver 64 t₁) (hlen : Addressable keccak t₁)
    (hfree : CollisionFree keccak t₁ t₂) (hempty : keccak [EMPTY_STRING_CODE] = EMPTY_ROOT)
    (h : t₁.hash keccak = t₂.hash keccak) {key : Bytes} (hkey : key.length = 32) :
    (∀ a, t₂.get key = .ok a → t₁.get key = .ok a) ↔
      ∀ value, Stores t₁ (toNibs key) value → ¬ Misread t₂ (toNibs key) value := by
  constructor
  · intro hbound value hs hmis
    obtain ⟨a, ha, hne⟩ := hmis.getInternal
    have := (hbound a ha).symm.trans hs.getInternal
    exact hne (Except.ok.inj this)
  · intro hread a ha
    rcases encode_of_hash ht.full.not_isDigest hlen hfree hempty h with hd | ⟨rfl, rfl⟩ | ⟨hn, hm, henc⟩
    · cases t₂ with
      | digest d => cases ha
      | null | branch | leaf | extension => cases hd
    · exact ha
    · refine (ht.full.full_of_isListed hn).lookup_match hm hlen hfree henc (?_) hread ha
      intro k hk
      rw [ht.length k hk, toNibs_length, hkey]

theorem encodings_leaf (path value : Bytes) :
    encodings keccak (.leaf path value) = {(MptNode.leaf path value).encode keccak} := by
  ext e
  constructor
  · rintro ⟨m, hm, -, rfl⟩
    cases hm with
    | refl => rfl
  · rintro rfl
    exact encode_mem rfl

theorem encodings_extension (path : Bytes) (child : MptNode) :
    encodings keccak (.extension path child) =
      insert ((MptNode.extension path child).encode keccak) (encodings keccak child) := by
  ext e
  constructor
  · rintro ⟨m, hm, hl, rfl⟩
    cases hm with
    | refl => exact .inl rfl
    | extension _ hm => exact .inr ⟨m, hm, hl, rfl⟩
  · rintro (rfl | he)
    · exact encode_mem rfl
    · exact encodings_mono (.extension path (.refl child)) he

theorem encodings_branch (children : Nibble → Option MptNode) :
    encodings keccak (.branch children) = insert ((MptNode.branch children).encode keccak)
      {e | ∃ i c, children i = some c ∧ e ∈ encodings keccak c} := by
  ext e
  constructor
  · rintro ⟨m, hm, hl, rfl⟩
    cases hm with
    | refl => exact .inl rfl
    | branch hc hm => exact .inr ⟨_, _, hc, m, hm, hl, rfl⟩
  · rintro (h | ⟨i, c, hc, he⟩)
    · rw [h]
      exact encode_mem rfl
    · exact encodings_mono (.branch hc (.refl c)) he

theorem encodings_pair {a b : Nibble} {p q v w e : Bytes}
    (h : e ∈ encodings keccak (splitBranch [] a (.leaf p v) b (.leaf q w))) :
    e = (splitBranch [] a (.leaf p v) b (.leaf q w)).encode keccak ∨ e = (MptNode.leaf p v).encode keccak ∨
      e = (MptNode.leaf q w).encode keccak := by
  have hbranch : splitBranch [] a (.leaf p v) b (.leaf q w) =
      .branch (Function.update (Function.update noChildren a (some (.leaf p v))) b (some (.leaf q w))) := rfl
  rw [hbranch, encodings_branch] at h
  rw [hbranch]
  rcases h with h | ⟨i, c, hc, he⟩
  · exact .inl h
  · rcases child_of_pair hc with ⟨-, rfl⟩ | ⟨-, rfl⟩
    · rw [encodings_leaf] at he
      exact .inr (.inl he)
    · rw [encodings_leaf] at he
      exact .inr (.inr he)

theorem encodings_null : encodings keccak .null = ∅ := by
  ext e
  constructor
  · rintro ⟨m, hm, hl, -⟩
    cases hm
    cases hl
  · intro he
    cases he

theorem addressable_leaf {path value : Bytes} {n : Nat}
    (h : (encodeList [encodeString path, encodeString value]).length = n) (hn : n < usizeLimit) :
    Addressable keccak (.leaf path value) := by
  intro e he
  rw [encodings_leaf, Set.mem_singleton_iff] at he
  rw [he, encode_leaf, h]
  exact hn

/-- A hash function that tells the members of a list apart has no collision among them. -/
theorem collisionFree_of_mem {encoded : List Bytes} {n m : MptNode}
    (hinj : ∀ x ∈ encoded, ∀ y ∈ encoded, keccak x = keccak y → x = y)
    (hempty : [EMPTY_STRING_CODE] ∈ encoded) (hn : ∀ e ∈ encodings keccak n, e ∈ encoded)
    (hm : ∀ e ∈ encodings keccak m, e ∈ encoded) : CollisionFree keccak n m := by
  have hall : Set.InjOn keccak {e | e ∈ encoded} := fun x hx y hy => hinj x hx y hy
  apply hall.mono
  rintro e (rfl | he | he)
  · exact hempty
  · exact hn e he
  · exact hm e he

section Sample

/-- One of two leaves below 62 nibbles of their keys. -/
def lowLeaf (value : UInt8) : MptNode := .leaf (toEncodedPath (List.replicate 62 0) true) [value]

/-- The branch over the two leaves. -/
def lowBranch : MptNode := splitBranch [] 0 (lowLeaf 1) 1 (lowLeaf 2)

/-- The full trie of the two keys. -/
def sharedStart : MptNode := .extension (toEncodedPath [0] false) lowBranch

/-- A leaf in the place of the extension: its value is the digest of the branch. -/
def leafForExtension (keccak : Bytes → B256) : MptNode :=
  .leaf (toEncodedPath [0] false) (keccak (lowBranch.encode keccak)).bytes

/-- The digest of the second leaf. -/
def secondDigest : B256 where
  bytes := [0x5f, 0xb0, 0x24, 0x95, 0xa7, 0x93, 0xb0, 0x0a, 0x15, 0xa7, 0xde, 0x44, 0x80, 0xec, 0x2c, 0x10, 0xdb,
    0x80, 0xc8, 0xa4, 0x3f, 0xc3, 0x2b, 0xbc, 0xc4, 0xe8, 0x7f, 0x68, 0x12, 0xad, 0x93, 0x1d]
  length_eq := rfl

/-- The digests of the leaves, of the branch and of the extension. -/
def sharedKeccak : Bytes → B256 :=
  let leaf (value : UInt8) : Bytes := [0xe2, 0xa0, 0x20] ++ List.replicate 31 0 ++ [value]
  let one : B256 := ⟨[0x94, 0xa7, 0x2b, 0x54, 0xd8, 0x47, 0x45, 0xa6, 0xdd, 0x30, 0x6c, 0x33, 0x3d, 0xa1, 0xc9, 0x48,
    0x1c, 0xa1, 0x2f, 0x35, 0x76, 0xd4, 0x91, 0xe1, 0x03, 0x0a, 0x50, 0xda, 0x31, 0x37, 0xc9, 0x2a], rfl⟩
  let branch : B256 := ⟨[0xf2, 0x90, 0xf1, 0xdd, 0x05, 0xef, 0x44, 0x40, 0x0a, 0xeb, 0x5d, 0x92, 0xaa, 0x26, 0xdd, 0x9a,
    0xf9, 0xd5, 0x5e, 0xdf, 0x51, 0xde, 0xc1, 0x0a, 0x97, 0x79, 0xa6, 0x60, 0x93, 0xc4, 0x2a, 0xcf], rfl⟩
  tableKeccak [(leaf 1, one), (leaf 2, secondDigest),
    ([0xf8, 0x51, 0xa0] ++ one.bytes ++ [0xa0] ++ secondDigest.bytes ++ List.replicate 15 0x80, branch),
    ([0xe2, 0x10, 0xa0] ++ branch.bytes, ⟨[0x20, 0xd8, 0x0c, 0xa8, 0x16, 0x11, 0x64, 0xd5, 0xae, 0xcd, 0xdf, 0xa6, 0x24, 0xe3, 0x91, 0xed,
      0xd6, 0x85, 0xf7, 0xa1, 0xae, 0x3b, 0xbb, 0xc0, 0xb3, 0x6f, 0xea, 0x85, 0xf4, 0xba, 0x8f, 0x4f], rfl⟩)]

theorem fullTrieOver_sharedStart : FullTrieOver 64 sharedStart := by
  have hbranch : Full lowBranch := by
    refine .branch (i := 0) (j := 1) (by decide) rfl rfl ?_
    intro i c hc
    rcases child_of_pair hc with ⟨-, rfl⟩ | ⟨-, rfl⟩
    · exact .leaf _ _
    · exact .leaf _ _
  refine ⟨.inr (.extension (by simp) rfl hbranch), ?_⟩
  intro key hlive
  obtain ⟨tail, rfl, htail⟩ := hlive.extends_path
  cases tail with
  | nil => exact absurd rfl htail
  | cons i tail =>
      obtain ⟨c, hc, hcl⟩ := htail.child
      rcases child_of_pair hc with ⟨-, rfl⟩ | ⟨-, rfl⟩
      · simp [hcl.leaf_path]
      · simp [hcl.leaf_path]

theorem reference_lowLeaf (value : UInt8) (h : value = 1 ∨ value = 2) :
    (lowLeaf value).reference keccak = .digest (keccak ((lowLeaf value).encode keccak)) := by
  rw [reference_of_isListed rfl, if_neg]
  rw [lowLeaf, encode_leaf]
  rcases h with rfl | rfl
  · decide +kernel
  · decide +kernel

theorem reference_lowBranch :
    lowBranch.reference keccak = .digest (keccak (lowBranch.encode keccak)) := by
  have hmem : ((lowLeaf 2).reference keccak).encode ∈ lowBranch.items keccak := mem_items_branch (i := 1) rfl
  have hlen := item_length_lt rfl hmem
  rw [reference_lowLeaf 2 (.inr rfl)] at hlen
  rw [reference_of_isListed rfl, if_neg]
  simp [MptNodeReference.encode, B256.length_eq] at hlen
  omega

/-- The two encodings are the same, whatever the hash function. -/
theorem encode_leafForExtension :
    sharedStart.encode keccak = (leafForExtension keccak).encode keccak := by
  rw [sharedStart, encode_extension, reference_lowBranch, leafForExtension, encode_leaf,
    encodeString_digest]

theorem encodings_lowBranch : encodings sharedKeccak lowBranch ⊆
    {lowBranch.encode sharedKeccak, (lowLeaf 1).encode sharedKeccak, (lowLeaf 2).encode sharedKeccak} := by
  rw [lowBranch, splitBranch, if_neg (by simp), encodings_branch]
  rintro e (rfl | ⟨i, c, hc, he⟩)
  · exact .inl rfl
  · rcases child_of_pair hc with ⟨-, rfl⟩ | ⟨-, rfl⟩
    · rw [lowLeaf, encodings_leaf] at he
      exact .inr (.inl he)
    · rw [lowLeaf, encodings_leaf] at he
      exact .inr (.inr he)

/-- The encodings in the example, the empty trie's first. -/
def sharedEncodings : List Bytes :=
  [[EMPTY_STRING_CODE], lowBranch.encode sharedKeccak, (lowLeaf 1).encode sharedKeccak,
    (lowLeaf 2).encode sharedKeccak, sharedStart.encode sharedKeccak]

theorem encodings_sharedStart {e : Bytes} (h : e ∈ encodings sharedKeccak sharedStart) :
    e ∈ sharedEncodings := by
  rw [sharedStart, encodings_extension] at h
  rcases h with rfl | h
  · simp [sharedEncodings, sharedStart]
  · rcases encodings_lowBranch h with rfl | rfl | rfl
    · simp [sharedEncodings]
    · simp [sharedEncodings]
    · simp [sharedEncodings]

theorem collisionFree_sharedStart :
    CollisionFree sharedKeccak sharedStart (leafForExtension sharedKeccak) := by
  have hinj : ∀ x ∈ sharedEncodings, ∀ y ∈ sharedEncodings, sharedKeccak x = sharedKeccak y → x = y := by
    decide +kernel
  apply collisionFree_of_mem hinj (by simp [sharedEncodings]) (fun e he => encodings_sharedStart he)
  intro e he
  rw [leafForExtension, encodings_leaf, ← leafForExtension, ← encode_leafForExtension] at he
  obtain rfl := he
  simp [sharedEncodings]

theorem get_of_hash_iff_leafForExtension :
    (∀ a, (leafForExtension sharedKeccak).get (List.replicate 32 0) = .ok a →
      sharedStart.get (List.replicate 32 0) = .ok a) ↔
    ∀ value, Stores sharedStart (toNibs (List.replicate 32 0)) value →
      ¬ Misread (leafForExtension sharedKeccak) (toNibs (List.replicate 32 0)) value :=
  get_of_hash_iff fullTrieOver_sharedStart
    (fun e he => (by decide +kernel : ∀ e ∈ sharedEncodings, e.length < usizeLimit) e
      (encodings_sharedStart he))
    collisionFree_sharedStart rfl
    (by rw [hash_of_isListed rfl, hash_of_isListed rfl, encode_leafForExtension]) (by decide)

/-- The leaf in the place of the extension has its hash, and denies a key that is stored. -/
theorem leafForExtension_denies :
    FullTrieOver 64 sharedStart ∧
    CollisionFree sharedKeccak sharedStart (leafForExtension sharedKeccak) ∧
    (∀ keccak, sharedStart.hash keccak = (leafForExtension keccak).hash keccak ∧
      (leafForExtension keccak).get (List.replicate 32 0) = .ok none) ∧
    sharedStart.get (List.replicate 32 0) = .ok (some [1]) := by
  refine ⟨fullTrieOver_sharedStart, collisionFree_sharedStart, fun keccak => ⟨?_, ?_⟩, ?_⟩
  · rw [hash_of_isListed rfl, hash_of_isListed rfl, encode_leafForExtension]
  · have hne : ([0] : List Nibble) ≠ toNibs (List.replicate 32 0) := by decide
    simp only [MptNode.get, leafForExtension, MptNode.getInternal, prefixNibs_toEncodedPath, if_neg hne]
  · rfl

end Sample

end Encodings

end RethProcessor
