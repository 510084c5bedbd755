import RethProcessor.TriePruning

/-! Deletion on a pruning. A branch left with one child pulls that child up; where the
child is a digest, its kind is hidden, and a leaf or an extension behind it is not merged. -/
namespace RethProcessor
open Paths

section
variable (keccak : Bytes → B256)

/-- A node that a full trie merges into the path above it. -/
def MptNode.merges : MptNode → Bool
  | .leaf _ _ | .extension _ _ => true
  | _ => false

/-- Deleting the key empties a child of a branch on its way, in the pruning `p` of `t`,
and leaves there a single child that is a digest in `p` and a leaf or an extension in `t`. -/
inductive HiddenOrphan : MptNode → MptNode → List Nibble → Prop
  | here {cs ts : Nibble → Option MptNode} {i j : Nibble} {key : List Nibble} {path value : Bytes}
      {d : B256} {orphan : MptNode} : i ≠ j → cs i = some (.leaf path value) →
      prefixNibs path = .ok key → cs j = some (.digest d) → ts j = some orphan → orphan.merges →
      (∀ k, k ≠ i → k ≠ j → cs k = none) → HiddenOrphan (.branch cs) (.branch ts) (i :: key)
  | branch {cs ts : Nibble → Option MptNode} {i : Nibble} {key : List Nibble} {c t : MptNode} :
      cs i = some c → ts i = some t → HiddenOrphan c t key →
      HiddenOrphan (.branch cs) (.branch ts) (i :: key)
  | extension {path : Bytes} {ns key : List Nibble} {c t : MptNode} : prefixNibs path = .ok ns →
      HiddenOrphan c t key → HiddenOrphan (.extension path c) (.extension path t) (ns ++ key)

end

variable {keccak : Bytes → B256}

/-- A deletion that changed something does not leave a digest. -/
theorem isDigest_of_deleted {n m : MptNode} {key : List Nibble}
    (h : n.deleteInternal key = (.ok true, m)) : m.isDigest = false := by
  cases n with
  | null | digest => simp [MptNode.deleteInternal] at h
  | branch children =>
      cases key with
      | nil => simp [MptNode.deleteInternal] at h
      | cons i tail =>
          rw [deleteInternal_branch_cons] at h
          have hr := onChange_eq_true h
          rw [← Prod.eta (deleteChild (children i) tail), hr, onChange_true] at h
          have hshape := (collapse_shape (Function.update children i (deleteChild (children i) tail).2)).2
          rwa [h] at hshape
  | leaf path value =>
      simp only [MptNode.deleteInternal] at h
      split at h
      · cases h
      · split at h
        · obtain ⟨-, rfl⟩ := Prod.mk.inj h
          rfl
        · cases h
  | extension path child =>
      cases hp : prefixNibs path with
      | error f => simp [MptNode.deleteInternal, hp] at h
      | ok ns =>
          by_cases hpre : ns <+: key
          · obtain ⟨tail, rfl⟩ := hpre
            rw [deleteInternal_extension_append child hp] at h
            have hr := onChange_eq_true h
            rw [← Prod.eta (child.deleteInternal tail), hr, onChange_true] at h
            have hshape := (mergeExtension_shape path ns (child.deleteInternal tail).2).2
            rwa [h] at hshape
          · simp [MptNode.deleteInternal, hp, isPrefixOf?_eq_none hpre] at h

/-- Pulling up keeps a pruning, unless a digest hides a node that merges. -/
theorem Pruning.prepend {c t : MptNode} (h : Pruning keccak c t)
    (hseen : c.isDigest = true → t.merges = false) (ns : List Nibble) :
    Pruning keccak (c.prepend ns) (t.prepend ns) := by
  cases h with
  | cut hd =>
      cases t with
      | null => simp at hd
      | leaf | extension => simp [MptNode.isDigest, MptNode.merges] at hseen
      | branch | digest => exact .extension _ (.cut hd)
  | null => exact .null
  | leaf path value => exact .leaf _ value
  | branch hs hc => exact .extension _ (.branch hs hc)
  | extension path hct => exact .extension _ hct

theorem Sole.pruning {cs ts : Nibble → Option MptNode} (h : ∀ i, PruningChild keccak (cs i) (ts i))
    {j : Nibble} {t : MptNode} (ht : Sole ts j t) : ∃ c, Sole cs j c ∧ Pruning keccak c t := by
  rcases (h j).cases with ⟨-, h₂⟩ | ⟨c, t', h₁, h₂, hpr⟩
  · rw [ht.1] at h₂
    cases h₂
  · obtain rfl : t = t' := Option.some.inj (ht.1.symm.trans h₂)
    refine ⟨c, ⟨h₁, ?_⟩, hpr⟩
    intro k hk
    rw [← Option.not_isSome_iff_eq_none, (h k).1, ht.2 k hk]
    simp

theorem sole_of_removed {children : Nibble → Option MptNode} {i j : Nibble} {c : MptNode} (hij : i ≠ j)
    (hj : children j = some c) (hothers : ∀ k, k ≠ i → k ≠ j → children k = none) :
    Sole (Function.update children i none) j c := by
  refine ⟨by rwa [Function.update_of_ne (Ne.symm hij)], ?_⟩
  intro k hk
  by_cases hki : k = i
  · rw [hki, Function.update_self]
  · rw [Function.update_of_ne hki, hothers k hki hk]

/-- A child that a deletion emptied, in a branch of a pruning and in that of its trie. -/
theorem collapse_removed {cs ts : Nibble → Option MptNode}
    (hpr : ∀ i, PruningChild keccak (cs i) (ts i)) (ht : Canonical (.branch ts)) {i : Nibble}
    {c : MptNode} {tail : List Nibble} (hci : cs i = some c) (hc : Canonical c)
    (hdel : c.deleteInternal tail = (.ok true, .null))
    (hno : ¬ HiddenOrphan (.branch cs) (.branch ts) (i :: tail)) :
    (collapse (Function.update cs i none)).1 = (collapse (Function.update ts i none)).1 ∧
      Pruning keccak (collapse (Function.update cs i none)).2
        (collapse (Function.update ts i none)).2 := by
  have hup := pruning_branch_update hpr i pruningChild_none
  rcases ht.left_over i with ⟨j, t, hji, htj, hsole⟩ | ⟨y, z, hyz, hy, hz⟩
  · obtain ⟨q, hq, hqt⟩ := hsole.pruning hup
    have hqj : cs j = some q := by
      rw [← hq.1, Function.update_of_ne hji]
    rw [collapse_of_sole hsole (ht.child htj), collapse_of_sole hq (hqt.canonical (ht.child htj))]
    refine ⟨rfl, hqt.prepend (?_) [j]⟩
    intro hd
    rw [← Bool.not_eq_true]
    intro hm
    obtain ⟨value, rfl⟩ := hc.leaf_of_deleted hdel
    cases q with
    | digest d =>
        refine hno (.here (Ne.symm hji) hci (prefixNibs_toEncodedPath tail true) hqj htj hm ?_)
        intro k hki hkj
        rw [← Function.update_of_ne hki none cs, hq.2 k hkj]
    | null | branch | leaf | extension => cases hd
  · rw [collapse_of_pair hyz hy hz, collapse_of_pair hyz (by rw [(hup y).1, hy]) (by rw [(hup z).1, hz])]
    exact ⟨rfl, pruning_branch_iff.mpr hup⟩

/-- A step of a deletion through a branch, behind which it goes as in the trie. -/
theorem agree_branch {cs ts : Nibble → Option MptNode} (hpr : ∀ i, PruningChild keccak (cs i) (ts i))
    (ht : Canonical (.branch ts)) {i : Nibble} {c t : MptNode} {tail : List Nibble} (hci : cs i = some c)
    (hti : ts i = some t) (hct : Pruning keccak c t) (hno : ¬ HiddenOrphan (.branch cs) (.branch ts) (i :: tail))
    (hag : Agree keccak c (c.deleteInternal tail) (t.deleteInternal tail)) :
    Agree keccak (.branch cs) (MptNode.deleteInternal (.branch cs) (i :: tail))
      (MptNode.deleteInternal (.branch ts) (i :: tail)) := by
  have htc := ht.child hti
  have hcc := hct.canonical htc
  obtain ⟨res, c', hr⟩ : ∃ res c', c.deleteInternal tail = (res, c') := ⟨_, _, rfl⟩
  obtain ⟨res', t', hr'⟩ : ∃ res t', t.deleteInternal tail = (res, t') := ⟨_, _, rfl⟩
  rw [deleteInternal_branch_cons, deleteInternal_branch_cons, hci, hti, deleteChild_some hr, deleteChild_some hr']
  rw [hr, hr'] at hag
  rcases hag with ⟨d, hd⟩ | ⟨hres, hafter⟩
  · obtain ⟨rfl, rfl⟩ := Prod.mk.inj hd
    exact .inl ⟨d, by simp [← hci]⟩
  · obtain rfl : res = res' := hres
    have hup := pruning_branch_update hpr i (pruningChild_some.mpr hafter)
    cases res with
    | error f => exact .inr ⟨rfl, pruning_branch_iff.mpr (by simpa using hup)⟩
    | ok changed =>
        cases changed with
        | false => exact .inr ⟨rfl, pruning_branch_iff.mpr (by simpa using hup)⟩
        | true =>
            rcases (htc.deleted hr').1 with rfl | htc'
            · obtain rfl := hafter.null_iff.mpr rfl
              exact .inr (collapse_removed hpr ht hci hcc hr hno)
            · have hcc' := hafter.canonical htc'
              have hcs := (pruning_branch_iff.mpr hpr).canonical ht
              simp only [MptNode.isEmpty_iff, htc'.ne_null, hcc'.ne_null, and_false, ↓reduceIte,
                onChange_true, collapse_update_some ht htc', collapse_update_some hcs hcc']
              exact .inr ⟨rfl, pruning_branch_iff.mpr hup⟩

/-- A step through an extension: what a deletion leaves below it is no digest, and is merged
alike. -/
theorem agree_extension {c t : MptNode} {ns tail : List Nibble} (htc : Canonical t) (hct : Pruning keccak c t)
    (hag : Agree keccak c (c.deleteInternal tail) (t.deleteInternal tail)) :
    Agree keccak (.extension (toEncodedPath ns false) c)
      (MptNode.deleteInternal (.extension (toEncodedPath ns false) c) (ns ++ tail))
      (MptNode.deleteInternal (.extension (toEncodedPath ns false) t) (ns ++ tail)) := by
  have hp := prefixNibs_toEncodedPath ns false
  obtain ⟨res, c', hr⟩ : ∃ res c', c.deleteInternal tail = (res, c') := ⟨_, _, rfl⟩
  obtain ⟨res', t', hr'⟩ : ∃ res t', t.deleteInternal tail = (res, t') := ⟨_, _, rfl⟩
  rw [deleteInternal_extension_append c hp, deleteInternal_extension_append t hp, hr, hr']
  rw [hr, hr'] at hag
  rcases hag with ⟨d, hd⟩ | ⟨hres, hafter⟩
  · obtain ⟨rfl, rfl⟩ := Prod.mk.inj hd
    exact .inl ⟨d, rfl⟩
  · obtain rfl : res = res' := hres
    cases res with
    | error f => exact .inr ⟨rfl, .extension _ hafter⟩
    | ok changed =>
        cases changed with
        | false => exact .inr ⟨rfl, .extension _ hafter⟩
        | true =>
            have htc' := (htc.deleted hr').1
            have hcc' := ((hct.canonical htc).deleted hr).1
            rw [onChange_true, onChange_true, mergeExtension_eq_prepend hcc', mergeExtension_eq_prepend htc']
            refine .inr ⟨rfl, hafter.prepend (?_) ns⟩
            intro hd
            rw [isDigest_of_deleted hr] at hd
            cases hd

/-- Where no orphan is hidden, a deletion from a pruning reaches a digest, or goes as in the trie. -/
theorem Pruning.deleteInternal {p t : MptNode} (h : Pruning keccak p t) (ht : CanonicalTrie t)
    {key : List Nibble} (hno : ¬ HiddenOrphan p t key) :
    Agree keccak p (p.deleteInternal key) (t.deleteInternal key) := by
  induction h generalizing key with
  | cut => exact .inl ⟨_, rfl⟩
  | null | leaf => exact .inr ⟨rfl, .refl _⟩
  | @branch cs ts hs hc ih =>
      have hch (i : Nibble) : PruningChild keccak (cs i) (ts i) := ⟨hs i, hc i⟩
      have hcan : Canonical (.branch ts) := by
        rcases ht with ht | ht
        · cases ht
        · exact ht
      cases key with
      | nil => exact .inr ⟨rfl, pruning_branch_iff.mpr hch⟩
      | cons i tail =>
          rcases (hch i).cases with ⟨h₁, h₂⟩ | ⟨c, t, h₁, h₂, hct⟩
          · rw [deleteInternal_branch_cons, deleteInternal_branch_cons, h₁, h₂]
            exact .inr ⟨rfl, pruning_branch_iff.mpr (pruning_branch_update hch i pruningChild_none)⟩
          · have hag := ih i c t h₁ h₂ (.inr (hcan.child h₂)) fun ho => hno (.branch h₁ h₂ ho)
            exact agree_branch hch hcan h₁ h₂ hct hno hag
  | @extension path c t hct ih =>
      have hcan : Canonical (.extension path t) := by
        rcases ht with ht | ht
        · cases ht
        · exact ht
      cases hcan with
      | @extension ns _ hns hkind htc =>
          have hp := prefixNibs_toEncodedPath ns false
          by_cases hpre : ns <+: key
          · obtain ⟨tail, rfl⟩ := hpre
            exact agree_extension htc hct (ih (.inr htc) fun ho => hno (.extension hp ho))
          · simp only [MptNode.deleteInternal, hp, isPrefixOf?_eq_none hpre]
            exact .inr ⟨rfl, .extension _ hct⟩

/-- How the nodes differ that a deletion leaves after pulling up a hidden orphan. -/
inductive Diverged (keccak : Bytes → B256) : MptNode → MptNode → Prop
  | leaf (path child ns value) : Diverged keccak (.extension path child) (.leaf (toEncodedPath ns true) value)
  | path {ns ms : List Nibble} (c t : MptNode) : ns ≠ ms →
      Diverged keccak (.extension (toEncodedPath ns false) c) (.extension (toEncodedPath ms false) t)
  | child (path : Bytes) {c t : MptNode} : ¬ Pruning keccak c t →
      Diverged keccak (.extension path c) (.extension path t)
  | branch {cs ts : Nibble → Option MptNode} : ¬ Pruning keccak (.branch cs) (.branch ts) →
      Diverged keccak (.branch cs) (.branch ts)

theorem Diverged.not_pruning {p t : MptNode} (h : Diverged keccak p t) : ¬ Pruning keccak p t := by
  intro hpr
  cases h with
  | leaf => cases hpr
  | path c t hne =>
      generalize hp : MptNode.extension _ c = p at hpr
      generalize ht : MptNode.extension _ t = q at hpr
      cases hpr with
      | extension path _ =>
          obtain ⟨hp, -⟩ := MptNode.extension.inj hp
          obtain ⟨ht, -⟩ := MptNode.extension.inj ht
          exact hne (toEncodedPath_inj.mp (hp.trans ht.symm)).1
      | cut | null | leaf | branch => cases hp
  | child path hne =>
      cases hpr with
      | extension _ hct => exact hne hct
  | branch hne => exact hne hpr

theorem Diverged.prepend {p t : MptNode} (h : Diverged keccak p t) (ns : List Nibble) :
    Diverged keccak (p.prepend ns) (t.prepend ns) := by
  cases h with
  | leaf path child ms value => exact .leaf _ child _ value
  | path c t hne =>
      simp only [MptNode.prepend, pathNibs_toEncodedPath]
      exact .path c t (by simpa using hne)
  | child path hne => exact .child _ hne
  | branch hne => exact .child _ hne

theorem Diverged.ne_null {p t : MptNode} (h : Diverged keccak p t) : p ≠ .null ∧ t ≠ .null := by
  cases h <;> simp

/-- A hidden orphan makes both deletions succeed, on nodes of different shapes. -/
theorem HiddenOrphan.deleted {p t : MptNode} {key : List Nibble} (h : HiddenOrphan p t key)
    (hpr : Pruning keccak p t) (ht : Canonical t) :
    ∃ p' t', p.deleteInternal key = (.ok true, p') ∧ t.deleteInternal key = (.ok true, t') ∧
      Diverged keccak p' t' := by
  induction h with
  | @here cs ts i j key path value d orphan hij hi hpath hj htj hm hothers =>
      have hch := pruning_branch_iff.mp hpr
      have hti : ts i = some (.leaf path value) := by
        rcases (hch i).cases with ⟨h₁, -⟩ | ⟨c, t, h₁, h₂, hct⟩
        · rw [hi] at h₁
          cases h₁
        · obtain rfl := Option.some.inj (hi.symm.trans h₁)
          cases hct with
          | leaf => exact h₂
      have hothers' : ∀ k, k ≠ i → k ≠ j → ts k = none := by
        intro k hki hkj
        rw [← Option.not_isSome_iff_eq_none, ← (hch k).1, hothers k hki hkj]
        simp
      have hsole := sole_of_removed hij hj hothers
      have hsole' := sole_of_removed hij htj hothers'
      have hleaf : (MptNode.leaf path value).deleteInternal key = (.ok true, .null) := by
        simp [MptNode.deleteInternal, hpath]
      have horphan := ht.child htj
      rw [deleteInternal_branch_cons, deleteInternal_branch_cons, hi, hti, deleteChild_some hleaf]
      refine ⟨_, _, collapse_of_sole hsole (.digest d), collapse_of_sole hsole' horphan, ?_⟩
      cases horphan with
      | leaf ms v => exact .leaf _ _ _ v
      | branch | digest => cases hm
      | @extension ms child hms =>
          simp only [MptNode.prepend, pathNibs_toEncodedPath]
          exact .path _ child (by simpa using hms)
  | @branch cs ts i key c t hi hti _ ih =>
      have hch := pruning_branch_iff.mp hpr
      have hct : Pruning keccak c t := by
        have := hch i
        rwa [hi, hti, pruningChild_some] at this
      have htc := ht.child hti
      obtain ⟨c', t', hc', ht', hdiv⟩ := ih hct htc
      have hcc' := (((hct.canonical htc).deleted hc').1).resolve_left hdiv.ne_null.1
      have htc' := ((htc.deleted ht').1).resolve_left hdiv.ne_null.2
      rw [deleteInternal_branch_cons, deleteInternal_branch_cons, hi, hti, deleteChild_some hc',
        deleteChild_some ht']
      simp only [MptNode.isEmpty_iff, htc'.ne_null, hcc'.ne_null, and_false, ↓reduceIte,
        onChange_true, collapse_update_some ht htc', collapse_update_some (hpr.canonical ht) hcc']
      refine ⟨_, _, rfl, rfl, .branch fun hbad => hdiv.not_pruning ?_⟩
      have := pruning_branch_iff.mp hbad i
      rwa [Function.update_self, Function.update_self, pruningChild_some] at this
  | @extension path ns key c t hp _ ih =>
      cases ht with
      | @extension ms _ hms hkind htc =>
          cases hpr with
          | extension _ hct =>
              obtain rfl : ms = ns := by simpa using hp
              obtain ⟨c', t', hc', ht', hdiv⟩ := ih hct htc
              rw [deleteInternal_extension_append c hp, deleteInternal_extension_append t hp, hc', ht',
                onChange_true, onChange_true,
                mergeExtension_eq_prepend ((hct.canonical htc).deleted hc').1,
                mergeExtension_eq_prepend (htc.deleted ht').1]
              exact ⟨_, _, rfl, rfl, hdiv.prepend ms⟩

/-- What a deletion on a pruning is to do: reach a digest, or go as in the trie. -/
def DeleteAgrees (keccak : Bytes → B256) (p t : MptNode) (key : Bytes) : Prop :=
  (∃ d, (p.delete key).1 = .error (notResolved d)) ∨
  ∃ b p' t', p.delete key = (.ok b, p') ∧ t.delete key = (.ok b, t') ∧ Pruning keccak p' t' ∧
    p'.hash keccak = t'.hash keccak

theorem HiddenOrphan.not_agrees {p t : MptNode} {key : Bytes} (h : HiddenOrphan p t (toNibs key))
    (hpr : Pruning keccak p t) (ht : Canonical t) : ¬ DeleteAgrees keccak p t key := by
  obtain ⟨p', t', hp', ht', hdiv⟩ := h.deleted hpr ht
  simp only [DeleteAgrees, MptNode.delete, hp', ht']
  rintro (⟨d, hd⟩ | ⟨b, p₁, t₁, hp₁, ht₁, hpr₁, -⟩)
  · cases hd
  · obtain ⟨-, rfl⟩ := Prod.mk.inj hp₁
    obtain ⟨-, rfl⟩ := Prod.mk.inj ht₁
    exact hdiv.not_pruning hpr₁

theorem HiddenOrphan.ne_null {p t : MptNode} {key : List Nibble} (h : HiddenOrphan p t key) :
    t ≠ .null := by
  cases h <;> simp

/-- On a pruning of a full trie over 32-byte keys, a deletion goes as in the trie exactly
when it leaves no orphan that is hidden. -/
theorem delete_pruning_iff {t p : MptNode} (ht : FullTrieOver 64 t) (hp : Pruning keccak p t)
    {key : Bytes} (hkey : key.length = 32) :
    DeleteAgrees keccak p t key ↔ ¬ HiddenOrphan p t (toNibs key) := by
  constructor
  · intro h ho
    have hcan := ht.full.canonical.resolve_left ho.ne_null
    exact ho.not_agrees hp hcan h
  · intro hno
    have hdone : ∃ b t', t.delete key = (.ok b, t') := by
      obtain ⟨o, ho⟩ := ht.full.answers (toNibs key)
      cases o with
      | none => exact ⟨_, _, ht.full.canonical.deleteInternal_absent (ht.admits hkey) ho⟩
      | some value =>
          obtain ⟨t', ht', -⟩ := ht.full.canonical.deleteInternal_ok ho
          exact ⟨_, t', ht'⟩
    obtain ⟨b, t', ht'⟩ := hdone
    rcases hp.deleteInternal ht.full.canonical hno with ⟨d, hd⟩ | ⟨hr, hpr⟩
    · exact .inl ⟨d, congrArg Prod.fst hd⟩
    · rw [show t.deleteInternal (toNibs key) = (.ok b, t') from ht'] at hr hpr
      exact .inr ⟨b, (p.deleteInternal (toNibs key)).2, t', Prod.ext hr rfl, ht', hpr, hpr.hash_eq⟩

theorem delete_pruning_iff_oneCut :
    DeleteAgrees cutKeccak (oneCut cutDigest) twoLeaves (List.replicate 32 0) ↔
      ¬ HiddenOrphan (oneCut cutDigest) twoLeaves (toNibs (List.replicate 32 0)) :=
  delete_pruning_iff fullTrieOver_twoLeaves (pruning_oneCut cutDigest reference_cutKeccak) (by decide)

theorem hiddenOrphan_oneCut (d : B256) :
    HiddenOrphan (oneCut d) twoLeaves (toNibs (List.replicate 32 0)) := by
  refine .here (i := 0) (j := 1) (by decide) rfl (prefixNibs_toEncodedPath _ true) rfl rfl rfl ?_
  intro k h0 h1
  rw [Function.update_of_ne h1, Function.update_of_ne h0]
  rfl

/-- With the second of two leaves cut, deleting the first key leaves an extension over the
digest instead of a leaf, whatever the hash function. -/
theorem delete_oneCut_diverges :
    FullTrieOver 64 twoLeaves ∧
    (∀ keccak, Pruning keccak (oneCut (keccak cutLeaf)) twoLeaves) ∧
    ∀ keccak, ¬ DeleteAgrees keccak (oneCut (keccak cutLeaf)) twoLeaves (List.replicate 32 0) := by
  have hpr (keccak : Bytes → B256) : Pruning keccak (oneCut (keccak cutLeaf)) twoLeaves :=
    pruning_oneCut _ (reference_cutLeaf keccak)
  refine ⟨fullTrieOver_twoLeaves, hpr, ?_⟩
  intro keccak
  exact (hiddenOrphan_oneCut _).not_agrees (hpr keccak)
    (fullTrieOver_twoLeaves.full.canonical.resolve_left (by simp [twoLeaves, splitBranch]))

end RethProcessor
