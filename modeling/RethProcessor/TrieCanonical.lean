import RethProcessor.TrieOps

/-! Canonical nodes: the shapes insertion and deletion keep to. A canonical node may
still have digests in it; what it holds is what lookups say about it. -/
namespace RethProcessor
open Paths

def MptNode.isBranch : MptNode → Bool
  | .branch _ => true
  | _ => false

/-- A node in canonical form, other than the empty trie. -/
inductive Canonical : MptNode → Prop
  | leaf (ns : List Nibble) (value : Bytes) : Canonical (.leaf (toEncodedPath ns true) value)
  | branch {children : Nibble → Option MptNode} {i j : Nibble} : i ≠ j →
      (children i).isSome → (children j).isSome →
      (∀ i c, children i = some c → Canonical c) → Canonical (.branch children)
  | extension {ns : List Nibble} {child : MptNode} : ns ≠ [] →
      (child.isBranch ∨ child.isDigest) → Canonical child →
      Canonical (.extension (toEncodedPath ns false) child)
  | digest (d : B256) : Canonical (.digest d)

theorem canonical_extension_iff {ns : List Nibble} {child : MptNode} :
    Canonical (.extension (toEncodedPath ns false) child) ↔
      ns ≠ [] ∧ (child.isBranch ∨ child.isDigest) ∧ Canonical child := by
  constructor
  · generalize hn : MptNode.extension (toEncodedPath ns false) child = n
    intro h
    cases h with
    | leaf | branch | digest => simp at hn
    | extension hne hkind hc =>
        simp only [MptNode.extension.injEq, toEncodedPath_inj, and_true] at hn
        obtain ⟨rfl, rfl⟩ := hn
        exact ⟨hne, hkind, hc⟩
  · rintro ⟨hne, hkind, hc⟩
    exact .extension hne hkind hc

theorem Canonical.child {children : Nibble → Option MptNode} (h : Canonical (.branch children))
    {i : Nibble} {c : MptNode} (hc : children i = some c) : Canonical c := by
  cases h with
  | branch _ _ _ hall => exact hall i c hc

/-- A canonical trie: empty, or a canonical node. -/
def CanonicalTrie (n : MptNode) : Prop := n = .null ∨ Canonical n

/-- A key at which a node is not known to be empty. -/
def Live (n : MptNode) (key : List Nibble) : Prop := n.getInternal key ≠ .ok none

/-- A canonical node without a digest in it. -/
inductive Full : MptNode → Prop
  | leaf (ns : List Nibble) (value : Bytes) : Full (.leaf (toEncodedPath ns true) value)
  | branch {children : Nibble → Option MptNode} {i j : Nibble} : i ≠ j →
      (children i).isSome → (children j).isSome →
      (∀ i c, children i = some c → Full c) → Full (.branch children)
  | extension {ns : List Nibble} {child : MptNode} : ns ≠ [] → child.isBranch → Full child →
      Full (.extension (toEncodedPath ns false) child)

def FullTrie (n : MptNode) : Prop := n = .null ∨ Full n

theorem Full.canonical {n : MptNode} (h : Full n) : Canonical n := by
  induction h with
  | leaf ns value => exact .leaf ns value
  | branch hne hi hj _ ih => exact .branch hne hi hj ih
  | extension hns hkind _ ih => exact .extension hns (.inl hkind) ih

theorem FullTrie.canonical {n : MptNode} (h : FullTrie n) : CanonicalTrie n := h.imp_right Full.canonical

@[simp] theorem getInternal_null (key : List Nibble) : MptNode.null.getInternal key = .ok none := rfl

@[simp] theorem getInternal_branch_nil (children : Nibble → Option MptNode) :
    (MptNode.branch children).getInternal [] = .ok none := rfl

@[simp] theorem getInternal_branch_cons (children : Nibble → Option MptNode) (i : Nibble)
    (tail : List Nibble) :
    (MptNode.branch children).getInternal (i :: tail) = getChild (children i) tail := rfl

@[simp] theorem getChild_none (tail : List Nibble) : getChild none tail = .ok none := rfl

@[simp] theorem getChild_some (node : MptNode) (tail : List Nibble) :
    getChild (some node) tail = node.getInternal tail := rfl

@[simp] theorem getInternal_leaf (ns : List Nibble) (value : Bytes) (key : List Nibble) :
    (MptNode.leaf (toEncodedPath ns true) value).getInternal key =
      .ok (if ns = key then some value else none) := by
  simp [MptNode.getInternal]

@[simp] theorem getInternal_extension_append (ns : List Nibble) (child : MptNode)
    (tail : List Nibble) :
    (MptNode.extension (toEncodedPath ns false) child).getInternal (ns ++ tail) =
      child.getInternal tail := by
  simp [MptNode.getInternal]

@[simp] theorem getInternal_extension_path (ns : List Nibble) (child : MptNode) :
    (MptNode.extension (toEncodedPath ns false) child).getInternal ns = child.getInternal [] := by
  simpa using getInternal_extension_append ns child []

theorem getInternal_extension_of_not {ns key : List Nibble} (h : ¬ ns <+: key) (child : MptNode) :
    (MptNode.extension (toEncodedPath ns false) child).getInternal key = .ok none := by
  simp [MptNode.getInternal, isPrefixOf?_eq_none h]

@[simp] theorem getInternal_digest (d : B256) (key : List Nibble) :
    (MptNode.digest d).getInternal key = .error (notResolved d) := rfl

theorem Live.extends_path {ns key : List Nibble} {child : MptNode}
    (h : Live (.extension (toEncodedPath ns false) child) key) :
    ∃ tail, key = ns ++ tail ∧ Live child tail := by
  by_cases hp : ns <+: key
  · obtain ⟨tail, rfl⟩ := hp
    refine ⟨tail, rfl, ?_⟩
    simpa [Live] using h
  · exact absurd (getInternal_extension_of_not hp child) h

theorem Live.child {children : Nibble → Option MptNode} {i : Nibble} {tail : List Nibble}
    (h : Live (.branch children) (i :: tail)) : ∃ c, children i = some c ∧ Live c tail := by
  cases hc : children i with
  | none => exact absurd (by simp [hc]) h
  | some c => exact ⟨c, rfl, by simpa [Live, hc] using h⟩

theorem Live.leaf_path {ns key : List Nibble} {value : Bytes}
    (h : Live (.leaf (toEncodedPath ns true) value) key) : key = ns := by
  by_contra hne
  exact h (by simp [Ne.symm hne])

/-- A canonical node holds something. -/
theorem Canonical.exists_live {n : MptNode} (h : Canonical n) : ∃ key, Live n key := by
  induction h with
  | leaf ns value => exact ⟨ns, by simp [Live]⟩
  | @branch children i j _ hi _ _ ih =>
      obtain ⟨c, hc⟩ := Option.isSome_iff_exists.mp hi
      obtain ⟨key, hkey⟩ := ih i c hc
      exact ⟨i :: key, by simpa [Live, hc] using hkey⟩
  | @extension ns child _ _ _ ih =>
      obtain ⟨key, hkey⟩ := ih
      exact ⟨ns ++ key, by simpa [Live] using hkey⟩
  | digest d => exact ⟨[], by simp [Live]⟩

theorem Canonical.ne_null {n : MptNode} (h : Canonical n) : n ≠ .null := by
  rintro rfl
  cases h

/-- Two keys of a branch that part at their first nibble. -/
theorem Canonical.branch_live {children : Nibble → Option MptNode}
    (h : Canonical (.branch children)) :
    ∃ i j s t, i ≠ j ∧ Live (.branch children) (i :: s) ∧ Live (.branch children) (j :: t) := by
  cases h with
  | @branch _ i j hne hi hj hc =>
      obtain ⟨ci, hci⟩ := Option.isSome_iff_exists.mp hi
      obtain ⟨cj, hcj⟩ := Option.isSome_iff_exists.mp hj
      obtain ⟨s, hs⟩ := (hc i ci hci).exists_live
      obtain ⟨t, ht⟩ := (hc j cj hcj).exists_live
      exact ⟨i, j, s, t, hne, by simpa [Live, hci] using hs, by simpa [Live, hcj] using ht⟩

theorem Canonical.digest_of_view {n : MptNode} (hn : Canonical n) {f : Failure}
    (h : n.getInternal [] = .error f) : ∃ d, n = .digest d := by
  cases hn with
  | leaf ns value => simp at h
  | branch => simp at h
  | @extension ns child hne _ _ =>
      rw [getInternal_extension_of_not (by simpa using hne)] at h
      cases h
  | digest d => exact ⟨d, rfl⟩

theorem Canonical.branch_of_view {n : MptNode} (hn : Canonical n) (hnil : n.getInternal [] = .ok none)
    {i j : Nibble} {s t : List Nibble} (hne : i ≠ j) (hs : Live n (i :: s)) (ht : Live n (j :: t)) :
    ∃ children, n = .branch children := by
  cases hn with
  | leaf ns value =>
      simp only [Live, getInternal_leaf, ne_eq, Except.ok.injEq, ite_eq_right_iff, reduceCtorEq,
        imp_false, not_not] at hs ht
      rw [hs, List.cons.injEq] at ht
      exact absurd ht.1 hne
  | @branch children _ _ _ _ _ _ => exact ⟨children, rfl⟩
  | @extension ns child hns _ _ =>
      obtain ⟨x, hx, -⟩ := hs.extends_path
      obtain ⟨y, hy, -⟩ := ht.extends_path
      cases ns with
      | nil => exact absurd rfl hns
      | cons a ns =>
          simp only [List.cons_append, List.cons.injEq] at hx hy
          exact absurd (hx.1.trans hy.1.symm) hne
  | digest d => simp at hnil

/-- An extension has two keys that part right below its path, or a digest there. -/
theorem Canonical.extension_live {ns : List Nibble} {child : MptNode}
    (h : Canonical (.extension (toEncodedPath ns false) child)) :
    (∃ i j s t, i ≠ j ∧ Live (.extension (toEncodedPath ns false) child) (ns ++ i :: s) ∧
      Live (.extension (toEncodedPath ns false) child) (ns ++ j :: t)) ∨
    ∃ d, child = .digest d := by
  obtain ⟨-, hkind, hc⟩ := canonical_extension_iff.mp h
  cases child with
  | null | leaf | extension => simp [MptNode.isBranch, MptNode.isDigest] at hkind
  | digest d => exact .inr ⟨d, rfl⟩
  | branch children =>
      obtain ⟨i, j, s, t, hne, hs, ht⟩ := hc.branch_live
      exact .inl ⟨i, j, s, t, hne, by simpa [Live] using hs, by simpa [Live] using ht⟩

theorem Canonical.leaf_of_view {n : MptNode} (hn : Canonical n) {ns : List Nibble} {value : Bytes}
    (h : ∀ key, n.getInternal key = .ok (if ns = key then some value else none)) :
    n = .leaf (toEncodedPath ns true) value := by
  have hlive {key : List Nibble} (hk : Live n key) : ns = key := by
    by_contra hne
    exact hk (by rw [h, if_neg hne])
  cases hn with
  | leaf ms v =>
      have hms : ns = ms := hlive (by simp [Live])
      subst hms
      have := h ns
      simp only [getInternal_leaf, ↓reduceIte, Except.ok.injEq, Option.some.injEq] at this
      rw [this]
  | branch hne hi hj hc =>
      obtain ⟨i, j, s, t, hne, hs, ht⟩ := (Canonical.branch hne hi hj hc).branch_live
      have := (hlive hs).symm.trans (hlive ht)
      exact absurd (List.cons.inj this).1 hne
  | @extension ms child hms hkind hc =>
      rcases (Canonical.extension hms hkind hc).extension_live with ⟨i, j, s, t, hne, hs, ht⟩ | ⟨d, rfl⟩
      · have := (hlive hs).symm.trans (hlive ht)
        rw [List.append_cancel_left_eq, List.cons.injEq] at this
        exact absurd this.1 hne
      · have := h ms
        simp at this
  | digest d => simpa using h []

/-- The path of an extension is the longest common beginning of its keys. -/
theorem Canonical.path_maximal {ns qs : List Nibble} {child : MptNode}
    (h : Canonical (.extension (toEncodedPath ns false) child))
    (hq : ∀ key, Live (.extension (toEncodedPath ns false) child) key → qs <+: key) : qs <+: ns := by
  rcases h.extension_live with ⟨i, j, s, t, hne, hs, ht⟩ | ⟨d, rfl⟩
  · exact common_of_apart hne (hq _ hs) (hq _ ht)
  · exact hq ns (by simp [Live])

/-- A canonical node is determined by its lookups. -/
theorem Canonical.ext_view {n m : MptNode} (hn : Canonical n) (hm : Canonical m)
    (h : ∀ key, n.getInternal key = m.getInternal key) : n = m := by
  induction hn generalizing m with
  | leaf ns value => exact (hm.leaf_of_view fun key => by rw [← h, getInternal_leaf]).symm
  | digest d =>
      obtain ⟨d', rfl⟩ := hm.digest_of_view (f := notResolved d) (by rw [← h]; rfl)
      have := h []
      simp only [getInternal_digest, Except.error.injEq, notResolved, Failure.err.injEq,
        Error.nodeNotResolved.injEq] at this
      rw [this]
  | @branch children i j hne hi hj hc ih =>
      have hcan := Canonical.branch hne hi hj hc
      obtain ⟨i', j', s, t, hne', hs, ht⟩ := hcan.branch_live
      obtain ⟨others, rfl⟩ := hm.branch_of_view (by rw [← h]; rfl) hne'
        (by rwa [Live, ← h]) (by rwa [Live, ← h])
      congr 1
      funext k
      have hk (tail : List Nibble) : getChild (children k) tail = getChild (others k) tail := h (k :: tail)
      cases hck : children k with
      | none =>
          cases hok : others k with
          | none => rfl
          | some b =>
              obtain ⟨key, hlive⟩ := (hm.child hok).exists_live
              have := hk key
              rw [hck, hok, getChild_none, getChild_some] at this
              exact absurd this.symm hlive
      | some a =>
          cases hok : others k with
          | none =>
              obtain ⟨key, hlive⟩ := (hc k a hck).exists_live
              have := hk key
              rw [hck, hok, getChild_none, getChild_some] at this
              exact absurd this hlive
          | some b =>
              rw [ih k a hck (hm.child hok) fun key => by simpa [hck, hok] using hk key]
  | @extension ns child hns hkind hc ih =>
      have hcan := Canonical.extension hns hkind hc
      cases hm with
      | leaf ms value =>
          have := hcan.leaf_of_view fun key => by rw [h, getInternal_leaf]
          cases this
      | digest d =>
          obtain ⟨d', hd⟩ := hcan.digest_of_view (f := notResolved d) (by rw [h]; rfl)
          cases hd
      | branch hne hi hj hc' =>
          obtain ⟨i', j', s, t, hne', hs, ht⟩ := (Canonical.branch hne hi hj hc').branch_live
          obtain ⟨others, ho⟩ := hcan.branch_of_view (by rw [h]; rfl) hne'
            (by rwa [Live, h]) (by rwa [Live, h])
          cases ho
      | @extension ms other hms hkind' hc' =>
          have hcan' := Canonical.extension hms hkind' hc'
          have hsub : ms <+: ns := hcan.path_maximal fun key hk => by
            have hlive : Live (.extension (toEncodedPath ms false) other) key := by rwa [Live, ← h]
            obtain ⟨tail, rfl, -⟩ := hlive.extends_path
            exact List.prefix_append ms tail
          have hsup : ns <+: ms := hcan'.path_maximal fun key hk => by
            have hlive : Live (.extension (toEncodedPath ns false) child) key := by rwa [Live, h]
            obtain ⟨tail, rfl, -⟩ := hlive.extends_path
            exact List.prefix_append ns tail
          obtain rfl : ns = ms := hsup.eq_of_length_le hsub.length_le
          rw [ih hc' fun key => by simpa using h (ns ++ key)]

/-- Nothing lies below a key that is held. -/
theorem Canonical.nil_of_live_append {n : MptNode} (hn : Canonical n) {key rest : List Nibble} {value : Bytes}
    (h : n.getInternal key = .ok (some value)) (hlive : Live n (key ++ rest)) : rest = [] := by
  induction hn generalizing key with
  | digest d => cases h
  | leaf ns old =>
      have hheld : Live (.leaf (toEncodedPath ns true) old) key := by
        rw [Live, h]
        simp
      have hkey := hheld.leaf_path
      have hall := hlive.leaf_path
      rw [hkey] at hall
      simpa using hall
  | branch _ _ _ _ ih =>
      cases key with
      | nil => cases h
      | cons i tail =>
          obtain ⟨c, hc, hbelow⟩ := Live.child hlive
          rw [getInternal_branch_cons, hc, getChild_some] at h
          exact ih i c hc h hbelow
  | @extension ns child _ _ _ ih =>
      by_cases hpre : ns <+: key
      · obtain ⟨tail, rfl⟩ := hpre
        rw [getInternal_extension_append] at h
        rw [List.append_assoc, Live, getInternal_extension_append] at hlive
        exact ih h hlive
      · rw [getInternal_extension_of_not hpre] at h
        cases h

/-- A canonical node that answers every lookup has no digest in it. -/
theorem Canonical.full {n : MptNode} (hn : Canonical n) (h : ∀ key, ∃ o, n.getInternal key = .ok o) :
    Full n := by
  induction hn with
  | leaf ns value => exact .leaf ns value
  | branch hne hi hj _ ih =>
      refine .branch hne hi hj fun i c hc => ih i c hc ?_
      intro key
      simpa [hc] using h (i :: key)
  | @extension ns child hns hkind _ ih =>
      have hc : ∀ key, ∃ o, child.getInternal key = .ok o := by
        intro key
        simpa using h (ns ++ key)
      refine .extension hns ?_ (ih hc)
      rcases hkind with hb | hd
      · exact hb
      · cases child with
        | digest d => simpa using hc []
        | null | branch | leaf | extension => cases hd
  | digest d => simpa using h []

theorem Full.answers {n : MptNode} (hn : Full n) (key : List Nibble) :
    ∃ o, n.getInternal key = .ok o := by
  induction hn generalizing key with
  | leaf ns value => exact ⟨_, getInternal_leaf ns value key⟩
  | @branch children _ _ _ _ _ _ ih =>
      cases key with
      | nil => exact ⟨none, rfl⟩
      | cons i tail =>
          rw [getInternal_branch_cons]
          cases hc : children i with
          | none => exact ⟨none, rfl⟩
          | some c => exact ih i c hc tail
  | @extension ns child _ _ _ ih =>
      by_cases hp : ns <+: key
      · obtain ⟨tail, rfl⟩ := hp
        rw [getInternal_extension_append]
        exact ih tail
      · exact ⟨none, getInternal_extension_of_not hp child⟩

theorem FullTrie.answers {n : MptNode} (hn : FullTrie n) (key : List Nibble) :
    ∃ o, n.getInternal key = .ok o := by
  rcases hn with rfl | hn
  · exact ⟨none, rfl⟩
  · exact hn.answers key

theorem CanonicalTrie.full {n : MptNode} (hn : CanonicalTrie n)
    (h : ∀ key, ∃ o, n.getInternal key = .ok o) : FullTrie n :=
  hn.imp_right fun hc => hc.full h

/-- A canonical trie is determined by its lookups. -/
theorem CanonicalTrie.ext_view {n m : MptNode} (hn : CanonicalTrie n) (hm : CanonicalTrie m)
    (h : ∀ key, n.getInternal key = m.getInternal key) : n = m := by
  rcases hn with rfl | hn <;> rcases hm with rfl | hm
  · rfl
  · obtain ⟨key, hk⟩ := hm.exists_live
    exact absurd (h key).symm hk
  · obtain ⟨key, hk⟩ := hn.exists_live
    exact absurd (h key) hk
  · exact hn.ext_view hm h

end RethProcessor
