import RethProcessor.TrieInsert

/-! Deletion: it removes one key and restores the canonical form, by pulling the only
child left in a branch, or the changed child of an extension, up to its parent. -/
namespace RethProcessor
open Paths

/-- The only child of a branch. -/
def Sole (children : Nibble → Option MptNode) (i : Nibble) (c : MptNode) : Prop :=
  children i = some c ∧ ∀ j, j ≠ i → children j = none

theorem mem_remaining {children : Nibble → Option MptNode} {i : Nibble} {c : MptNode} :
    (i, c) ∈ remaining children ↔ children i = some c := by
  simp only [remaining, List.mem_filterMap, List.mem_finRange, true_and, Option.map_eq_some_iff,
    Prod.mk.injEq]
  constructor
  · rintro ⟨j, b, hb, rfl, rfl⟩
    exact hb
  · intro h
    exact ⟨i, c, h, rfl, rfl⟩

theorem pairwise_remaining (children : Nibble → Option MptNode) :
    (remaining children).Pairwise fun x y => x.1 ≠ y.1 := by
  refine List.Pairwise.filterMap _ ?_ (List.nodup_finRange 16)
  intro i j hij x hx y hy
  obtain ⟨a, -, rfl⟩ := Option.map_eq_some_iff.mp hx
  obtain ⟨b, -, rfl⟩ := Option.map_eq_some_iff.mp hy
  exact hij

theorem nodup_remaining (children : Nibble → Option MptNode) : (remaining children).Nodup :=
  (pairwise_remaining children).imp fun hne heq => hne (congrArg Prod.fst heq)

theorem remaining_of_sole {children : Nibble → Option MptNode} {i : Nibble} {c : MptNode}
    (h : Sole children i c) : remaining children = [(i, c)] := by
  have hmem : (i, c) ∈ remaining children := mem_remaining.mpr h.1
  have hall : ∀ x ∈ remaining children, x = (i, c) := by
    rintro ⟨j, b⟩ hx
    have hb := mem_remaining.mp hx
    by_cases hji : j = i
    · subst hji
      rw [h.1] at hb
      rw [Option.some.inj hb]
    · rw [h.2 j hji] at hb
      cases hb
  have hnd := nodup_remaining children
  match hr : remaining children with
  | [] => simp [hr] at hmem
  | [x] => rw [hall x (by simp [hr])]
  | x :: y :: rest =>
      rw [hr] at hnd
      have hxy : x = y := (hall x (by simp [hr])).trans (hall y (by simp [hr])).symm
      simp [hxy] at hnd

theorem remaining_of_pair {children : Nibble → Option MptNode} {i j : Nibble} (hne : i ≠ j)
    (hi : (children i).isSome) (hj : (children j).isSome) :
    ∃ x y rest, remaining children = x :: y :: rest := by
  obtain ⟨a, ha⟩ := Option.isSome_iff_exists.mp hi
  obtain ⟨b, hb⟩ := Option.isSome_iff_exists.mp hj
  have hma := mem_remaining.mpr ha
  have hmb := mem_remaining.mpr hb
  match hr : remaining children with
  | [] => simp [hr] at hma
  | [x] =>
      rw [hr, List.mem_singleton] at hma hmb
      exact absurd (Prod.mk.inj (hma.trans hmb.symm)).1 hne
  | x :: y :: rest => exact ⟨x, y, rest, rfl⟩

theorem collapse_of_pair {children : Nibble → Option MptNode} {i j : Nibble} (hne : i ≠ j)
    (hi : (children i).isSome) (hj : (children j).isSome) :
    collapse children = (.ok true, .branch children) := by
  obtain ⟨x, y, rest, h⟩ := remaining_of_pair hne hi hj
  simp [collapse, h]

/-- A branch that changed is reported as changed, and does not become a digest. -/
theorem collapse_shape (children : Nibble → Option MptNode) :
    (collapse children).1 ≠ .ok false ∧ (collapse children).2.isDigest = false := by
  unfold collapse
  split
  · exact ⟨by simp, rfl⟩
  · split
    · split <;> exact ⟨by simp, rfl⟩
    · split <;> exact ⟨by simp, rfl⟩
    · exact ⟨by simp, rfl⟩
    · exact ⟨by simp, rfl⟩
    · exact ⟨by simp, rfl⟩
  · exact ⟨by simp, rfl⟩

/-- The nibbles of a path, which are there for every path but the empty byte string. -/
def pathNibs (path : Bytes) : List Nibble :=
  match prefixNibs path with
  | .ok ns => ns
  | .error _ => []

@[simp] theorem pathNibs_toEncodedPath (ns : List Nibble) (isLeaf : Bool) :
    pathNibs (toEncodedPath ns isLeaf) = ns := by simp [pathNibs]

/-- The node that holds, under `ns`, what a node holds. -/
def MptNode.prepend (ns : List Nibble) : MptNode → MptNode
  | .null => .null
  | .leaf path value => .leaf (toEncodedPath (ns ++ pathNibs path) true) value
  | .extension path child => .extension (toEncodedPath (ns ++ pathNibs path) false) child
  | .branch children => .extension (toEncodedPath ns false) (.branch children)
  | .digest d => .extension (toEncodedPath ns false) (.digest d)

theorem Canonical.prepend {n : MptNode} (h : Canonical n) {ns : List Nibble} (hns : ns ≠ []) :
    Canonical (n.prepend ns) := by
  cases h with
  | leaf ms value => exact .leaf _ value
  | branch hne hi hj hc => exact .extension hns (.inl rfl) (.branch hne hi hj hc)
  | extension hms hkind hc =>
      simp only [MptNode.prepend, pathNibs_toEncodedPath]
      exact .extension (by simp [hns]) hkind hc
  | digest d => exact .extension hns (.inr rfl) (.digest d)

theorem CanonicalTrie.prepend {n : MptNode} (h : CanonicalTrie n) {ns : List Nibble} (hns : ns ≠ []) :
    CanonicalTrie (n.prepend ns) := by
  rcases h with rfl | h
  · exact .inl rfl
  · exact .inr (h.prepend hns)

theorem CanonicalTrie.getInternal_prepend {n : MptNode} (h : CanonicalTrie n) (ns key : List Nibble) :
    (n.prepend ns).getInternal key =
      (MptNode.extension (toEncodedPath ns false) n).getInternal key := by
  by_cases hk : ns <+: key
  · obtain ⟨s, rfl⟩ := hk
    rw [getInternal_extension_append]
    rcases h with rfl | h
    · rfl
    · cases h with
      | leaf ms value => simp [MptNode.prepend]
      | branch | digest => simp [MptNode.prepend]
      | @extension ms child _ _ _ =>
          simp only [MptNode.prepend, pathNibs_toEncodedPath]
          by_cases hs : ms <+: s
          · obtain ⟨t, rfl⟩ := hs
            rw [← List.append_assoc, getInternal_extension_append, getInternal_extension_append]
          · rw [getInternal_extension_of_not hs, getInternal_extension_of_not (by simpa using hs)]
  · rw [getInternal_extension_of_not hk]
    have hms (ms : List Nibble) : ¬ (ns ++ ms) <+: key := by
      intro hp
      exact hk ((List.prefix_append ns ms).trans hp)
    rcases h with rfl | h
    · rfl
    · cases h with
      | leaf ms value =>
          have hne : ns ++ ms ≠ key := by
            rintro rfl
            exact hk (List.prefix_append ns ms)
          simp [MptNode.prepend, hne]
      | branch | digest => exact getInternal_extension_of_not hk _
      | extension =>
          simp only [MptNode.prepend, pathNibs_toEncodedPath]
          exact getInternal_extension_of_not (hms _) _

theorem collapse_of_sole {children : Nibble → Option MptNode} {i : Nibble} {c : MptNode}
    (h : Sole children i c) (hc : Canonical c) :
    collapse children = (.ok true, c.prepend [i]) := by
  cases hc with
  | leaf | extension | branch | digest =>
      simp [collapse, remaining_of_sole h, MptNode.prepend]

theorem getInternal_prepend_sole {children : Nibble → Option MptNode} {i : Nibble} {c : MptNode}
    (h : Sole children i c) (hc : Canonical c) :
    (c.prepend [i]).getInternal = (MptNode.branch children).getInternal := by
  funext k
  rw [CanonicalTrie.getInternal_prepend (.inr hc)]
  cases k with
  | nil => exact getInternal_extension_of_not (by simp) c
  | cons j s =>
      by_cases hj : j = i
      · subst hj
        rw [getInternal_branch_cons, h.1, getChild_some]
        exact getInternal_extension_append [j] c s
      · rw [getInternal_branch_cons, h.2 j hj, getInternal_extension_of_not (by simp [Ne.symm hj]),
          getChild_none]

theorem mergeExtension_eq_prepend {c : MptNode} (hc : CanonicalTrie c) (ns : List Nibble) :
    mergeExtension (toEncodedPath ns false) ns c = (.ok true, c.prepend ns) := by
  rcases hc with rfl | hc
  · rfl
  · cases hc <;> simp [mergeExtension, MptNode.prepend]

/-- An extension whose child changed is reported as changed, and does not become a digest. -/
theorem mergeExtension_shape (path : Bytes) (ns : List Nibble) (child : MptNode) :
    (mergeExtension path ns child).1 ≠ .ok false ∧ (mergeExtension path ns child).2.isDigest = false := by
  unfold mergeExtension
  split
  · exact ⟨by simp, rfl⟩
  · split <;> exact ⟨by simp, rfl⟩
  · split <;> exact ⟨by simp, rfl⟩
  · exact ⟨by simp, rfl⟩
  · exact ⟨by simp, rfl⟩

@[simp] theorem deleteChild_none (tail : List Nibble) : deleteChild none tail = (.ok false, none) := rfl

theorem deleteInternal_branch_cons (children : Nibble → Option MptNode) (i : Nibble)
    (tail : List Nibble) :
    (MptNode.branch children).deleteInternal (i :: tail) =
      onChange (deleteChild (children i) tail)
        (fun child => .branch (Function.update children i child))
        (fun child => collapse (Function.update children i child)) := rfl

theorem deleteChild_some {node m : MptNode} {tail : List Nibble} {res : Except Failure Bool}
    (h : node.deleteInternal tail = (res, m)) :
    deleteChild (some node) tail =
      (res, if res = .ok true ∧ m.isEmpty then none else some m) := by
  simp only [deleteChild]
  rw [h]

theorem deleteInternal_extension_append {path : Bytes} {ns : List Nibble} (child : MptNode)
    (hp : prefixNibs path = .ok ns) (tail : List Nibble) :
    (MptNode.extension path child).deleteInternal (ns ++ tail) =
      onChange (child.deleteInternal tail) (.extension path) (mergeExtension path ns) := by
  simp [MptNode.deleteInternal, hp]

theorem onChange_eq_true {α : Type} {r : Except Failure Bool × α} {unchanged : α → MptNode}
    {changed : α → Mutation} {m : MptNode} (h : onChange r unchanged changed = (.ok true, m)) :
    r.1 = .ok true := by
  obtain ⟨res, a⟩ := r
  cases res with
  | error f => cases h
  | ok b =>
      cases b with
      | false => cases h
      | true => rfl

theorem onChange_eq_false {α : Type} {r : Except Failure Bool × α} {unchanged : α → MptNode}
    {changed : α → Mutation} {m : MptNode} (h : onChange r unchanged changed = (.ok false, m))
    (hc : ∀ a, (changed a).1 ≠ .ok false) : r.1 = .ok false ∧ unchanged r.2 = m := by
  obtain ⟨res, a⟩ := r
  cases res with
  | error f => cases h
  | ok b =>
      cases b with
      | false => exact ⟨rfl, (Prod.mk.inj h).2⟩
      | true => exact absurd (congrArg Prod.fst h) (hc a)

/-- Where a lookup fails, a deletion fails in the same way and changes nothing. -/
theorem deleteInternal_error {n : MptNode} {key : List Nibble} {f : Failure}
    (h : n.getInternal key = .error f) : n.deleteInternal key = (.error f, n) := by
  induction n generalizing key with
  | null => cases h
  | branch children ih =>
      cases key with
      | nil => cases h
      | cons i tail =>
          cases hc : children i with
          | none => simp [hc] at h
          | some c =>
              rw [getInternal_branch_cons, hc, getChild_some] at h
              rw [deleteInternal_branch_cons, hc, deleteChild_some (ih i c hc h)]
              simp [← hc]
  | leaf path old =>
      cases hp : prefixNibs path with
      | error g => simp_all [MptNode.getInternal, MptNode.deleteInternal]
      | ok ns => simp [MptNode.getInternal, hp] at h
  | extension path child ih =>
      cases hp : prefixNibs path with
      | error g => simp_all [MptNode.getInternal, MptNode.deleteInternal]
      | ok ns =>
          by_cases hpre : ns <+: key
          · obtain ⟨tail, rfl⟩ := hpre
            have hc : child.getInternal tail = .error f := by simpa [MptNode.getInternal, hp] using h
            rw [deleteInternal_extension_append child hp, ih hc, onChange_error]
          · simp [MptNode.getInternal, hp, isPrefixOf?_eq_none hpre] at h
  | digest d =>
      cases h
      rfl

/-- Two keys of the node part right behind `key`. -/
def Parts (n : MptNode) (key : List Nibble) : Prop :=
  ∃ i j s t, i ≠ j ∧ Live n (key ++ i :: s) ∧ Live n (key ++ j :: t)

theorem parts_branch_cons {children : Nibble → Option MptNode} {x : Nibble} {tail : List Nibble} :
    Parts (.branch children) (x :: tail) ↔ ∃ c, children x = some c ∧ Parts c tail := by
  constructor
  · rintro ⟨i, j, s, t, hne, hs, ht⟩
    obtain ⟨c, hc, hlive⟩ := hs.child
    exact ⟨c, hc, i, j, s, t, hne, hlive, by simpa [Live, hc] using ht⟩
  · rintro ⟨c, hc, i, j, s, t, hne, hs, ht⟩
    exact ⟨i, j, s, t, hne, by simpa [Live, hc] using hs, by simpa [Live, hc] using ht⟩

theorem parts_extension_append {ns tail : List Nibble} {child : MptNode} :
    Parts (.extension (toEncodedPath ns false) child) (ns ++ tail) ↔ Parts child tail := by
  simp only [Parts, Live, List.append_assoc, getInternal_extension_append]

/-- Where a lookup finds nothing, a deletion changes nothing: it returns `Ok(false)`, but for a key
that ends at a branch. -/
theorem Canonical.deleteInternal_none {n : MptNode} (hn : Canonical n) {key : List Nibble}
    (h : n.getInternal key = .ok none) :
    Parts n key ∧ n.deleteInternal key = (.error valueInBranch, n) ∨
      ¬ Parts n key ∧ n.deleteInternal key = (.ok false, n) := by
  induction hn generalizing key with
  | digest d => cases h
  | leaf ns old =>
      refine .inr ⟨?_, ?_⟩
      · rintro ⟨i, j, s, t, hne, hs, ht⟩
        have := hs.leaf_path.trans ht.leaf_path.symm
        rw [List.append_cancel_left_eq, List.cons.injEq] at this
        exact hne this.1
      · have hne : ns ≠ key := by
          rintro rfl
          simp at h
        simp [MptNode.deleteInternal, hne]
  | @branch children i j hne hi hj hc ih =>
      cases key with
      | nil => exact .inl ⟨(Canonical.branch hne hi hj hc).branch_live, rfl⟩
      | cons x tail =>
          rw [getInternal_branch_cons] at h
          rw [parts_branch_cons, deleteInternal_branch_cons]
          cases hx : children x with
          | none =>
              refine .inr ⟨?_, by rw [deleteChild_none, onChange_false, ← hx, Function.update_eq_self]⟩
              rintro ⟨c, hc, -⟩
              cases hc
          | some c =>
              rw [hx, getChild_some] at h
              have hparts : (∃ d, some c = some d ∧ Parts d tail) ↔ Parts c tail :=
                ⟨fun ⟨_, hd, hp⟩ => Option.some.inj hd ▸ hp, fun hp => ⟨c, rfl, hp⟩⟩
              rw [hparts]
              refine (ih x c hx h).imp (And.imp_right ?_) (And.imp_right ?_)
              · intro hdel
                rw [deleteChild_some hdel]
                simp [← hx]
              · intro hdel
                rw [deleteChild_some hdel]
                simp [← hx]
  | @extension ns child hns hkind hc ih =>
      by_cases hpre : ns <+: key
      · obtain ⟨tail, rfl⟩ := hpre
        rw [getInternal_extension_append] at h
        rw [parts_extension_append, deleteInternal_extension_append child (prefixNibs_toEncodedPath ns false)]
        refine (ih h).imp (And.imp_right ?_) (And.imp_right ?_)
        · intro hdel
          rw [hdel, onChange_error]
        · intro hdel
          rw [hdel, onChange_false]
      · refine .inr ⟨?_, by simp [MptNode.deleteInternal, isPrefixOf?_eq_none hpre]⟩
        rintro ⟨i, j, s, t, hne, hs, ht⟩
        obtain ⟨x, hx, -⟩ := hs.extends_path
        obtain ⟨y, hy, -⟩ := ht.extends_path
        exact hpre (common_of_apart hne ⟨x, hx.symm⟩ ⟨y, hy.symm⟩)

/-- A key that the node admits and does not hold ends at no branch. -/
theorem Admits.not_parts {n : MptNode} {key : List Nibble} (hadm : Admits n key)
    (h : n.getInternal key = .ok none) : ¬ Parts n key := by
  rintro ⟨i, j, s, t, -, hs, -⟩
  rcases hadm _ hs (.inr (List.prefix_append key (i :: s))) with heq | ⟨f, hf⟩
  · simp at heq
  · rw [h] at hf
    cases hf

/-- A key that is held ends at no branch. -/
theorem Canonical.not_parts {n : MptNode} (hn : Canonical n) {key : List Nibble} {value : Bytes}
    (h : n.getInternal key = .ok (some value)) : ¬ Parts n key := by
  rintro ⟨i, j, s, t, -, hs, -⟩
  cases hn.nil_of_live_append h hs

/-- Where a lookup finds nothing and no key stands in the way, a deletion returns `Ok(false)`. -/
theorem Canonical.deleteInternal_absent {n : MptNode} (hn : Canonical n) {key : List Nibble}
    (hadm : Admits n key) (h : n.getInternal key = .ok none) :
    n.deleteInternal key = (.ok false, n) := by
  rcases hn.deleteInternal_none h with ⟨hparts, -⟩ | ⟨-, hdel⟩
  · exact absurd hparts (hadm.not_parts h)
  · exact hdel

/-- What a successful deletion leaves: a canonical trie without the key. -/
def Deleted (n : MptNode) (key : List Nibble) : Prop :=
  ∃ m, n.deleteInternal key = (.ok true, m) ∧ CanonicalTrie m ∧ Overwrites n m key none

/-- What is left of a branch without one of its children: one child, or at least two. -/
theorem Canonical.left_over {children : Nibble → Option MptNode} (hn : Canonical (.branch children))
    (x : Nibble) : (∃ y c, y ≠ x ∧ children y = some c ∧ Sole (Function.update children x none) y c) ∨
      ∃ y z, y ≠ z ∧ (Function.update children x none y).isSome ∧
        (Function.update children x none z).isSome := by
  have hleft : ∃ y, y ≠ x ∧ (children y).isSome := by
    cases hn with
    | @branch _ i j hne hi hj _ =>
        by_cases hix : i = x
        · exact ⟨j, fun h => hne (hix.trans h.symm), hj⟩
        · exact ⟨i, hix, hi⟩
  obtain ⟨y, hyx, hy⟩ := hleft
  obtain ⟨c, hc⟩ := Option.isSome_iff_exists.mp hy
  have hy' : Function.update children x none y = some c := by rwa [Function.update_of_ne hyx]
  by_cases hmore : ∃ z, y ≠ z ∧ (Function.update children x none z).isSome
  · obtain ⟨z, hyz, hz⟩ := hmore
    exact .inr ⟨y, z, hyz, by simp [hy'], hz⟩
  · refine .inl ⟨y, c, hyx, hc, hy', ?_⟩
    intro z hz
    rw [← Option.not_isSome_iff_eq_none]
    intro hs
    exact hmore ⟨z, Ne.symm hz, hs⟩

/-- A branch from which a child was removed altogether. -/
theorem deleted_child {children : Nibble → Option MptNode} (hn : Canonical (.branch children))
    (x : Nibble) : ∃ m, collapse (Function.update children x none) = (.ok true, m) ∧ Canonical m ∧
      m.getInternal = (MptNode.branch (Function.update children x none)).getInternal := by
  rcases hn.left_over x with ⟨y, c, -, hc, hsole⟩ | ⟨y, z, hyz, hy, hz⟩
  · exact ⟨_, collapse_of_sole hsole (hn.child hc), (hn.child hc).prepend (by simp),
      getInternal_prepend_sole hsole (hn.child hc)⟩
  · refine ⟨_, collapse_of_pair hyz hy hz, .branch hyz hy hz ?_, rfl⟩
    intro k c hk
    by_cases hkx : k = x
    · simp [hkx] at hk
    · rw [Function.update_of_ne hkx] at hk
      exact hn.child hk

theorem collapse_update_some {children : Nibble → Option MptNode} (hn : Canonical (.branch children))
    {m : MptNode} (hm : Canonical m) (x : Nibble) :
    collapse (Function.update children x (some m)) =
      (.ok true, .branch (Function.update children x (some m))) := by
  cases canonical_branch_update hn hm x with
  | branch hne hi hj _ => exact collapse_of_pair hne hi hj

/-- Where a lookup finds a value, a deletion returns `Ok(true)` and removes just that key. -/
theorem Canonical.deleteInternal_ok {n : MptNode} (hn : Canonical n) {key : List Nibble}
    {value : Bytes} (h : n.getInternal key = .ok (some value)) : Deleted n key := by
  induction hn generalizing key with
  | digest d => cases h
  | leaf ns old =>
      rw [getInternal_leaf, Except.ok.injEq] at h
      have hns : ns = key := by
        by_contra hne
        simp [hne] at h
      subst hns
      refine ⟨.null, by simp [MptNode.deleteInternal], .inl rfl, ?_⟩
      funext k
      by_cases hk : k = ns
      · simp [hk]
      · simp [Function.update_of_ne hk, Ne.symm hk]
  | @branch children i j hne hi hj hc ih =>
      have hcan := Canonical.branch hne hi hj hc
      cases key with
      | nil => simp at h
      | cons x tail =>
          rw [getInternal_branch_cons] at h
          cases hx : children x with
          | none => simp [hx] at h
          | some c =>
              rw [hx, getChild_some] at h
              obtain ⟨m, hm, hmc, hget⟩ := ih x c hx h
              unfold Deleted
              rw [deleteInternal_branch_cons, hx, deleteChild_some hm, onChange_true]
              rcases hmc with rfl | hmc
              · obtain ⟨r, hr, hrc, hrv⟩ := deleted_child hcan x
                refine ⟨r, hr, .inr hrc, ?_⟩
                rw [Overwrites, hrv]
                apply overwrites_branch
                rw [hx]
                exact hget
              · have hempty : m.isEmpty = false := by
                  rw [← Bool.not_eq_true, MptNode.isEmpty_iff]
                  exact hmc.ne_null
                simp only [hempty, Bool.false_eq_true, and_false, ↓reduceIte]
                refine ⟨_, collapse_update_some hcan hmc x, .inr (canonical_branch_update hcan hmc x),
                  overwrites_branch ?_⟩
                rw [hx]
                exact hget
  | @extension ns child hns hkind hc ih =>
      by_cases hpre : ns <+: key
      · obtain ⟨tail, rfl⟩ := hpre
        rw [getInternal_extension_append] at h
        obtain ⟨m, hm, hmc, hget⟩ := ih h
        unfold Deleted
        rw [deleteInternal_extension_append child (prefixNibs_toEncodedPath ns false), hm, onChange_true]
        refine ⟨_, mergeExtension_eq_prepend hmc ns, hmc.prepend hns, ?_⟩
        rw [Overwrites, ← overwrites_extension hget ns]
        funext k
        exact hmc.getInternal_prepend ns k
      · rw [getInternal_extension_of_not hpre] at h
        cases h

theorem CanonicalTrie.deleteInternal_ok {n : MptNode} (hn : CanonicalTrie n) {key : List Nibble}
    {value : Bytes} (h : n.getInternal key = .ok (some value)) : Deleted n key := by
  rcases hn with rfl | hn
  · cases h
  · exact hn.deleteInternal_ok h

theorem CanonicalTrie.deleteInternal_absent {n : MptNode} (hn : CanonicalTrie n) {key : List Nibble}
    (hadm : Admits n key) (h : n.getInternal key = .ok none) :
    n.deleteInternal key = (.ok false, n) := by
  rcases hn with rfl | hn
  · rfl
  · exact hn.deleteInternal_absent hadm h

/-- A deletion that changed something found its key. -/
theorem getInternal_of_deleted {n m : MptNode} {key : List Nibble}
    (h : n.deleteInternal key = (.ok true, m)) : ∃ value, n.getInternal key = .ok (some value) := by
  induction n generalizing key m with
  | null | digest => simp [MptNode.deleteInternal] at h
  | branch children ih =>
      cases key with
      | nil => simp [MptNode.deleteInternal] at h
      | cons i tail =>
          cases hc : children i with
          | none => simp [deleteInternal_branch_cons, hc] at h
          | some c =>
              obtain ⟨res, c', hr⟩ : ∃ res c', c.deleteInternal tail = (res, c') := ⟨_, _, rfl⟩
              rw [deleteInternal_branch_cons, hc, deleteChild_some hr] at h
              have hres : res = .ok true := onChange_eq_true h
              subst hres
              rw [getInternal_branch_cons, hc, getChild_some]
              exact ih i c hc hr
  | leaf path value =>
      cases hp : prefixNibs path with
      | error f => simp [MptNode.deleteInternal, hp] at h
      | ok ns =>
          by_cases hk : ns = key
          · exact ⟨value, by simp [MptNode.getInternal, hp, hk]⟩
          · simp [MptNode.deleteInternal, hp, hk] at h
  | extension path child ih =>
      cases hp : prefixNibs path with
      | error f => simp [MptNode.deleteInternal, hp] at h
      | ok ns =>
          by_cases hpre : ns <+: key
          · obtain ⟨tail, rfl⟩ := hpre
            obtain ⟨res, c', hr⟩ : ∃ res c', child.deleteInternal tail = (res, c') := ⟨_, _, rfl⟩
            rw [deleteInternal_extension_append child hp, hr] at h
            have hres : res = .ok true := onChange_eq_true h
            subst hres
            simpa [MptNode.getInternal, hp] using ih hr
          · simp [MptNode.deleteInternal, hp, isPrefixOf?_eq_none hpre] at h

/-- A deletion that returns `Ok(false)` found nothing, and changed nothing. -/
theorem deleteInternal_false {n m : MptNode} {key : List Nibble}
    (h : n.deleteInternal key = (.ok false, m)) : n.getInternal key = .ok none ∧ m = n := by
  induction n generalizing key m with
  | null => exact ⟨rfl, (Prod.mk.inj h).2.symm⟩
  | digest => cases h
  | branch children ih =>
      cases key with
      | nil => cases h
      | cons i tail =>
          rw [deleteInternal_branch_cons] at h
          obtain ⟨hres, hm⟩ := onChange_eq_false h fun a => (collapse_shape _).1
          rw [getInternal_branch_cons]
          cases hc : children i with
          | none =>
              rw [hc, deleteChild_none] at hm
              exact ⟨rfl, by rw [← hm, ← hc, Function.update_eq_self]⟩
          | some c =>
              obtain ⟨res, c', hr⟩ : ∃ res c', c.deleteInternal tail = (res, c') := ⟨_, _, rfl⟩
              rw [hc, deleteChild_some hr] at hres hm
              obtain rfl : res = .ok false := hres
              obtain ⟨hget, rfl⟩ := ih i c hc hr
              refine ⟨hget, ?_⟩
              rw [← hm]
              simp [← hc]
  | leaf path value =>
      cases hp : prefixNibs path with
      | error f => simp [MptNode.deleteInternal, hp] at h
      | ok ns =>
          by_cases hk : ns = key
          · simp [MptNode.deleteInternal, hp, hk] at h
          · simp only [MptNode.deleteInternal, hp, if_neg hk] at h
            exact ⟨by simp [MptNode.getInternal, hp, hk], (Prod.mk.inj h).2.symm⟩
  | extension path child ih =>
      cases hp : prefixNibs path with
      | error f => simp [MptNode.deleteInternal, hp] at h
      | ok ns =>
          by_cases hpre : ns <+: key
          · obtain ⟨tail, rfl⟩ := hpre
            obtain ⟨res, c', hr⟩ : ∃ res c', child.deleteInternal tail = (res, c') := ⟨_, _, rfl⟩
            rw [deleteInternal_extension_append child hp, hr] at h
            obtain ⟨hres, hm⟩ := onChange_eq_false h fun a => (mergeExtension_shape path ns a).1
            obtain rfl : res = .ok false := hres
            obtain ⟨hget, rfl⟩ := ih hr
            exact ⟨by simpa [MptNode.getInternal, hp] using hget, hm.symm⟩
          · simp only [MptNode.deleteInternal, hp, isPrefixOf?_eq_none hpre] at h
            exact ⟨by simp [MptNode.getInternal, hp, isPrefixOf?_eq_none hpre], (Prod.mk.inj h).2.symm⟩

theorem Canonical.deleted {n m : MptNode} (hn : Canonical n) {key : List Nibble}
    (h : n.deleteInternal key = (.ok true, m)) : CanonicalTrie m ∧ Overwrites n m key none := by
  obtain ⟨value, hget⟩ := getInternal_of_deleted h
  obtain ⟨m', hm', hcan, hview⟩ := hn.deleteInternal_ok hget
  obtain rfl : m = m' := (Prod.mk.inj (h.symm.trans hm')).2
  exact ⟨hcan, hview⟩

theorem CanonicalTrie.deleted {n m : MptNode} (hn : CanonicalTrie n) {key : List Nibble}
    (h : n.deleteInternal key = (.ok true, m)) : CanonicalTrie m ∧ Overwrites n m key none := by
  rcases hn with rfl | hn
  · cases h
  · exact hn.deleted h

theorem CanonicalTrie.deleteInternal_none {n : MptNode} (hn : CanonicalTrie n) {key : List Nibble}
    (h : n.getInternal key = .ok none) :
    Parts n key ∧ n.deleteInternal key = (.error valueInBranch, n) ∨
      ¬ Parts n key ∧ n.deleteInternal key = (.ok false, n) := by
  rcases hn with rfl | hn
  · exact .inr ⟨fun ⟨_, _, _, _, _, hs, _⟩ => hs rfl, rfl⟩
  · exact hn.deleteInternal_none h

/-- A deletion that does not return `Ok(true)` leaves the trie as it was. -/
theorem CanonicalTrie.deleteInternal_unchanged {n : MptNode} (hn : CanonicalTrie n) (key : List Nibble)
    (h : (n.deleteInternal key).1 ≠ .ok true) : (n.deleteInternal key).2 = n := by
  cases hget : n.getInternal key with
  | error f => rw [deleteInternal_error hget]
  | ok o =>
      cases o with
      | none =>
          rcases hn.deleteInternal_none hget with ⟨-, hdel⟩ | ⟨-, hdel⟩
          · rw [hdel]
          · rw [hdel]
      | some value =>
          obtain ⟨m, hm, -⟩ := hn.deleteInternal_ok hget
          exact absurd (congrArg Prod.fst hm) h

/-- A deletion that leaves nothing was that of a leaf. -/
theorem Canonical.leaf_of_deleted {n : MptNode} (hn : Canonical n) {key : List Nibble}
    (h : n.deleteInternal key = (.ok true, .null)) :
    ∃ value, n = .leaf (toEncodedPath key true) value := by
  obtain ⟨value, hget⟩ := getInternal_of_deleted h
  obtain ⟨-, hview⟩ := hn.deleted h
  refine ⟨value, hn.leaf_of_view ?_⟩
  intro k
  by_cases hk : key = k
  · subst hk
    simpa using hget
  · have := congrFun hview k
    rw [Function.update_of_ne (Ne.symm hk)] at this
    rw [if_neg hk, ← this]
    rfl

end RethProcessor
