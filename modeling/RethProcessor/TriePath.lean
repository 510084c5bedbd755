import RethProcessor.TriePruning

/-! Nodes by the nibbles that lead to them. Where a pruning is unknown, agreement on the
answered keys and on the places of the digests is enough to find it. -/
namespace RethProcessor
open Paths

/-- The node at the end of a path of nibbles, where one begins there. -/
inductive NodeAt : MptNode → List Nibble → MptNode → Prop
  | refl (n : MptNode) : NodeAt n [] n
  | branch {children : Nibble → Option MptNode} {i : Nibble} {c m : MptNode} {way : List Nibble} :
      children i = some c → NodeAt c way m → NodeAt (.branch children) (i :: way) m
  | extension {path : Bytes} {ns way : List Nibble} {c m : MptNode} : prefixNibs path = .ok ns →
      NodeAt c way m → NodeAt (.extension path c) (ns ++ way) m

/-- A lookup goes on from any node on its way. -/
theorem NodeAt.getInternal {n m : MptNode} {way : List Nibble} (h : NodeAt n way m)
    (rest : List Nibble) : n.getInternal (way ++ rest) = m.getInternal rest := by
  induction h with
  | refl => rfl
  | branch hc _ ih => simpa [hc] using ih
  | extension hp _ ih => simpa [MptNode.getInternal, hp] using ih

theorem NodeAt.getInternal_self {n m : MptNode} {way : List Nibble} (h : NodeAt n way m) :
    n.getInternal way = m.getInternal [] := by simpa using h.getInternal []

theorem nodeAt_branch_cons {children : Nibble → Option MptNode} {i : Nibble} {way : List Nibble}
    {m : MptNode} : NodeAt (.branch children) (i :: way) m ↔
      ∃ c, children i = some c ∧ NodeAt c way m := by
  constructor
  · intro h
    cases h with
    | branch hc hm => exact ⟨_, hc, hm⟩
  · rintro ⟨c, hc, hm⟩
    exact .branch hc hm

theorem nodeAt_extension_append {ns way : List Nibble} {c m : MptNode} (hns : ns ≠ []) :
    NodeAt (.extension (toEncodedPath ns false) c) (ns ++ way) m ↔ NodeAt c way m := by
  constructor
  · generalize hw : ns ++ way = w
    intro h
    cases h with
    | refl => exact absurd (List.append_eq_nil_iff.mp hw).1 hns
    | extension hp hm =>
        rw [prefixNibs_toEncodedPath, Except.ok.injEq] at hp
        subst hp
        obtain rfl := List.append_cancel_left hw
        exact hm
  · exact .extension (prefixNibs_toEncodedPath ns false)

theorem Canonical.nodeAt_nil {n m : MptNode} (hn : Canonical n) (h : NodeAt n [] m) : m = n := by
  generalize hw : ([] : List Nibble) = w at h
  cases h with
  | refl => rfl
  | branch => cases hw
  | extension hp _ =>
      cases hn with
      | extension hns =>
          rw [prefixNibs_toEncodedPath, Except.ok.injEq] at hp
          subst hp
          exact absurd (List.append_eq_nil_iff.mp hw.symm).1 hns

theorem NodeAt.canonical {n m : MptNode} {way : List Nibble} (h : NodeAt n way m)
    (hn : Canonical n) : Canonical m := by
  induction h with
  | refl => exact hn
  | branch hc _ ih => exact ih (hn.child hc)
  | extension _ _ ih =>
      cases hn with
      | extension _ _ hc => exact ih hc

theorem NodeAt.full {n m : MptNode} {way : List Nibble} (h : NodeAt n way m) (hn : Full n) :
    Full m := (h.canonical hn.canonical).full fun key => by
  rw [← h.getInternal key]
  exact hn.answers _

/-- What a failing lookup ran into. -/
theorem Canonical.error_digest {n : MptNode} (hn : Canonical n) {key : List Nibble} {f : Failure}
    (h : n.getInternal key = .error f) :
    ∃ way d, way <+: key ∧ NodeAt n way (.digest d) ∧ f = notResolved d := by
  induction hn generalizing key with
  | leaf ns value => simp at h
  | digest d =>
      cases h
      exact ⟨[], d, List.nil_prefix, .refl _, rfl⟩
  | @branch children i j _ _ _ _ ih =>
      cases key with
      | nil => cases h
      | cons x tail =>
          rw [getInternal_branch_cons] at h
          cases hx : children x with
          | none => simp [hx] at h
          | some c =>
              rw [hx, getChild_some] at h
              obtain ⟨way, d, hpre, hat, hf⟩ := ih x c hx h
              exact ⟨x :: way, d, by simpa using hpre, .branch hx hat, hf⟩
  | @extension ns child _ _ _ ih =>
      by_cases hpre : ns <+: key
      · obtain ⟨tail, rfl⟩ := hpre
        rw [getInternal_extension_append] at h
        obtain ⟨way, d, hw, hat, hf⟩ := ih h
        exact ⟨ns ++ way, d, by simpa using hw, .extension (prefixNibs_toEncodedPath ns false) hat, hf⟩
      · rw [getInternal_extension_of_not hpre] at h
        cases h

theorem CanonicalTrie.error_digest {n : MptNode} (hn : CanonicalTrie n) {key : List Nibble}
    {f : Failure} (h : n.getInternal key = .error f) :
    ∃ way d, way <+: key ∧ NodeAt n way (.digest d) ∧ f = notResolved d := by
  rcases hn with rfl | hn
  · cases h
  · exact hn.error_digest h

/-- No digest lies below another one. -/
theorem Canonical.digest_eq {n : MptNode} (hn : Canonical n) {way short : List Nibble} {d e : B256}
    (hd : NodeAt n way (.digest d)) (he : NodeAt n short (.digest e)) (h : short <+: way) :
    short = way := by
  induction hn generalizing way short with
  | leaf ns value => cases hd
  | digest x =>
      cases hd
      exact List.prefix_nil.mp h
  | @branch children i j _ _ _ _ ih =>
      cases hd with
      | @branch _ x c _ way hc hd =>
          cases short with
          | nil => cases he
          | cons y short =>
              obtain ⟨rfl, hpre⟩ := List.cons_prefix_cons.mp h
              obtain ⟨c', hc', he⟩ := nodeAt_branch_cons.mp he
              obtain rfl : c = c' := Option.some.inj (hc.symm.trans hc')
              rw [ih y c hc hd he hpre]
  | @extension ns child hns _ _ ih =>
      cases hd with
      | extension hp hd =>
          rw [prefixNibs_toEncodedPath, Except.ok.injEq] at hp
          subst hp
          generalize hs : short = s at he
          cases he with
          | extension hp he =>
              rw [prefixNibs_toEncodedPath, Except.ok.injEq] at hp
              subst hp
              subst hs
              rw [ih hd he (by simpa using h)]

/-- The parent of a node that merges is a branch. -/
theorem NodeAt.parent_branch {n m : MptNode} {way : List Nibble} (h : NodeAt n way m)
    (hn : Canonical n) (hm : m.isBranch = false) (hd : m.isDigest = false) (hw : way ≠ []) :
    ∃ above i children, way = above ++ [i] ∧ NodeAt n above (.branch children) ∧ children i = some m := by
  induction h with
  | refl => exact absurd rfl hw
  | @branch children i c m way hc hat ih =>
      cases way with
      | nil =>
          obtain rfl := (hn.child hc).nodeAt_nil hat
          exact ⟨[], i, children, rfl, .refl _, hc⟩
      | cons x way =>
          obtain ⟨above, j, others, hway, hbr, hj⟩ := ih (hn.child hc) hm hd (by simp)
          exact ⟨i :: above, j, others, by rw [hway, List.cons_append], .branch hc hbr, hj⟩
  | @extension path ns way c m hp hat ih =>
      cases hn with
      | extension _ hkind hc =>
          cases way with
          | nil =>
              obtain rfl := hc.nodeAt_nil hat
              rw [hm, hd] at hkind
              simp at hkind
          | cons x way =>
              obtain ⟨above, j, others, hway, hbr, hj⟩ := ih hc hm hd (by simp)
              exact ⟨ns ++ above, j, others, by rw [hway, List.append_assoc], .extension hp hbr, hj⟩

/-- A path of nibbles that leads to something ends where a node begins, or inside the path
of a leaf or an extension. -/
theorem Full.nodeAt_or_inside {n : MptNode} (hn : Full n) {way rest : List Nibble}
    (h : Live n (way ++ rest)) :
    (∃ m, NodeAt n way m) ∨ ∃ above below m, way = above ++ below ∧ below ≠ [] ∧ Canonical m ∧
      m.isBranch = false ∧ NodeAt n above (m.prepend below) := by
  induction hn generalizing way with
  | leaf ns value =>
      cases way with
      | nil => exact .inl ⟨_, .refl _⟩
      | cons x way =>
          refine .inr ⟨[], x :: way, .leaf (toEncodedPath rest true) value, rfl, by simp, .leaf _ _, rfl, ?_⟩
          rw [MptNode.prepend, pathNibs_toEncodedPath, h.leaf_path]
          exact .refl _
  | @branch children i j _ _ _ _ ih =>
      cases way with
      | nil => exact .inl ⟨_, .refl _⟩
      | cons x way =>
          obtain ⟨c, hc, hlive⟩ := Live.child (by simpa using h)
          rcases ih x c hc hlive with ⟨m, hm⟩ | ⟨above, below, m, rfl, hb, hcan, hkind, hat⟩
          · exact .inl ⟨m, .branch hc hm⟩
          · exact .inr ⟨x :: above, below, m, rfl, hb, hcan, hkind, .branch hc hat⟩
  | @extension ns child hns hkind hchild ih =>
      have hp := prefixNibs_toEncodedPath ns false
      obtain ⟨tail, htail, hlive⟩ := h.extends_path
      rcases List.append_eq_append_iff.mp htail with ⟨more, hmore, hrest⟩ | ⟨more, rfl, htl⟩
      · cases way with
        | nil => exact .inl ⟨_, .refl _⟩
        | cons x way =>
            by_cases hm : more = []
            · subst hm
              rw [List.append_nil] at hmore
              exact .inl ⟨child, hmore ▸ by simpa using NodeAt.extension hp (.refl child)⟩
            · refine .inr ⟨[], x :: way, .extension (toEncodedPath more false) child, rfl, by simp,
                .extension hm (.inl hkind) hchild.canonical, rfl, ?_⟩
              rw [MptNode.prepend, pathNibs_toEncodedPath, ← hmore]
              exact .refl _
      · rw [htl] at hlive
        rcases ih hlive with ⟨m, hm⟩ | ⟨above, below, m, rfl, hb, hcan, hk, hat⟩
        · exact .inl ⟨m, .extension hp hm⟩
        · exact .inr ⟨ns ++ above, below, m, by rw [List.append_assoc], hb, hcan, hk, .extension hp hat⟩

section Agree
variable {keccak : Bytes → B256}

/-- The first trie answers as the second one, or fails. -/
def AgreesWith (p t : MptNode) : Prop :=
  ∀ key, (∃ f, p.getInternal key = .error f) ∨ p.getInternal key = t.getInternal key

/-- Each digest of the first trie is the reference of the node at its place in the second one. -/
def DigestsOf (keccak : Bytes → B256) (p t : MptNode) : Prop :=
  ∀ way d, NodeAt p way (.digest d) → ∃ m, NodeAt t way m ∧ m.reference keccak = .digest d

theorem ne_null_of_reference {m : MptNode} {d : B256} (h : m.reference keccak = .digest d) :
    m ≠ .null := by
  rintro rfl
  simp at h

/-- Where the first trie has something below a point it answers, so has the second one. -/
theorem live_of_live {p t : MptNode} (hp : CanonicalTrie p) (ht : Full t) (hag : AgreesWith p t)
    (hdig : DigestsOf keccak p t) {short rest : List Nibble} {x : Nibble} {o : Option Bytes}
    (ho : p.getInternal short = .ok o) (hlive : Live p (short ++ x :: rest)) :
    ∃ rest', Live t (short ++ x :: rest') := by
  rcases hag (short ++ x :: rest) with ⟨f, hf⟩ | heq
  · obtain ⟨way, d, hway, hat, -⟩ := hp.error_digest hf
    have hlong : ¬ way <+: short := by
      rintro ⟨more, rfl⟩
      rw [hat.getInternal] at ho
      cases ho
    obtain ⟨more, rfl⟩ : short <+: way := by
      rcases List.prefix_or_prefix_of_prefix hway (List.prefix_append short (x :: rest)) with h | h
      · exact absurd h hlong
      · exact h
    obtain ⟨y, more, rfl⟩ : ∃ y more', more = y :: more' := by
      cases more with
      | nil => exact absurd (by simp) hlong
      | cons y more => exact ⟨y, more, rfl⟩
    obtain rfl : y = x := by
      rw [List.prefix_append_right_inj, List.cons_prefix_cons] at hway
      exact hway.1
    obtain ⟨m, hm, href⟩ := hdig _ d hat
    obtain ⟨key, hkey⟩ := (hm.full ht).canonical.exists_live
    refine ⟨more ++ key, ?_⟩
    have hget := hm.getInternal key
    rw [List.append_assoc, List.cons_append] at hget
    rwa [Live, hget]
  · exact ⟨rest, by rwa [Live, ← heq]⟩

theorem DigestsOf.child {cs ts : Nibble → Option MptNode} (h : DigestsOf keccak (.branch cs) (.branch ts))
    {x : Nibble} {c t : MptNode} (hc : cs x = some c) (ht : ts x = some t) : DigestsOf keccak c t := by
  intro way d hat
  obtain ⟨m, hm, href⟩ := h (x :: way) d (.branch hc hat)
  obtain ⟨t', ht', hm⟩ := nodeAt_branch_cons.mp hm
  obtain rfl : t = t' := Option.some.inj (ht.symm.trans ht')
  exact ⟨m, hm, href⟩

theorem DigestsOf.below {ns : List Nibble} {c t : MptNode} (hns : ns ≠ [])
    (h : DigestsOf keccak (.extension (toEncodedPath ns false) c) (.extension (toEncodedPath ns false) t)) :
    DigestsOf keccak c t := by
  intro way d hat
  obtain ⟨m, hm, href⟩ := h (ns ++ way) d (.extension (prefixNibs_toEncodedPath ns false) hat)
  exact ⟨m, (nodeAt_extension_append hns).mp hm, href⟩

/-- At the end of the path of an extension, a full trie that agrees with it has a node there, or
keys that part there. -/
theorem ends_of_agree {ns : List Nibble} {child t : MptNode}
    (hp : Canonical (.extension (toEncodedPath ns false) child)) (ht : Full t)
    (hag : AgreesWith (.extension (toEncodedPath ns false) child) t)
    (hdig : DigestsOf keccak (.extension (toEncodedPath ns false) child) t) :
    (∃ i j s s', i ≠ j ∧ Live t (ns ++ i :: s) ∧ Live t (ns ++ j :: s')) ∨ ∃ m, NodeAt t ns m := by
  obtain ⟨-, hkind, hc⟩ := canonical_extension_iff.mp hp
  cases child with
  | null | leaf | extension => simp [MptNode.isBranch, MptNode.isDigest] at hkind
  | digest d =>
      have hat : NodeAt (.extension (toEncodedPath ns false) (.digest d)) ns (.digest d) := by
        simpa using NodeAt.extension (prefixNibs_toEncodedPath ns false) (.refl (.digest d))
      obtain ⟨m, hm, -⟩ := hdig ns d hat
      exact .inr ⟨m, hm⟩
  | branch children =>
      obtain ⟨i, j, s, s', hij, hi, hj⟩ := hc.branch_live
      have hns : (MptNode.extension (toEncodedPath ns false) (.branch children)).getInternal ns =
          .ok none := by simp
      have hlive {x : Nibble} {r : List Nibble} (h : Live (.branch children) (x :: r)) :
          ∃ r', Live t (ns ++ x :: r') :=
        live_of_live (.inr hp) ht hag hdig hns
          (show Live (.extension _ _) (ns ++ x :: r) by simpa [Live] using h)
      obtain ⟨r, hr⟩ := hlive hi
      obtain ⟨r', hr'⟩ := hlive hj
      exact .inl ⟨i, j, r, r', hij, hr, hr'⟩

/-- Every key of a trie that agrees with an extension goes on from its path. -/
theorem AgreesWith.path_prefix {ns : List Nibble} {child t : MptNode}
    (hag : AgreesWith (.extension (toEncodedPath ns false) child) t) {key : List Nibble} (hk : Live t key) :
    ns <+: key := by
  by_contra hpre
  have hnone := getInternal_extension_of_not hpre child
  rcases hag key with ⟨f, hf⟩ | heq
  · rw [hnone] at hf
    cases hf
  · exact hk (by rw [← heq, hnone])

/-- An extension is found again in a full trie that agrees with it. -/
theorem extension_of_agree {ns : List Nibble} {child t : MptNode}
    (hp : Canonical (.extension (toEncodedPath ns false) child)) (ht : Full t)
    (hag : AgreesWith (.extension (toEncodedPath ns false) child) t)
    (hdig : DigestsOf keccak (.extension (toEncodedPath ns false) child) t) :
    ∃ c, t = .extension (toEncodedPath ns false) c := by
  obtain ⟨hns, -, -⟩ := canonical_extension_iff.mp hp
  have hends := ends_of_agree hp ht hag hdig
  cases ht with
  | leaf ms value =>
      rcases hends with ⟨i, j, s, s', hij, hi, hj⟩ | ⟨m, hm⟩
      · have := hi.leaf_path.trans hj.leaf_path.symm
        simp only [List.append_cancel_left_eq, List.cons.injEq] at this
        exact absurd this.1 hij
      · cases hm
        exact absurd rfl hns
  | branch hne hi hj hbr =>
      obtain ⟨i', j', s, s', hij, hs, hs'⟩ := (Full.branch hne hi hj hbr).canonical.branch_live
      obtain ⟨r, hr⟩ := hag.path_prefix hs
      obtain ⟨r', hr'⟩ := hag.path_prefix hs'
      cases ns with
      | nil => exact absurd rfl hns
      | cons a ns =>
          simp only [List.cons_append, List.cons.injEq] at hr hr'
          exact absurd (hr.1.symm.trans hr'.1) hij
  | @extension ms c hms hkind hc =>
      have hsub : ns <+: ms :=
        (Full.extension hms hkind hc).canonical.path_maximal fun key hk => hag.path_prefix hk
      have hsup : ms <+: ns := by
        rcases hends with ⟨i, j, s, s', hij, hi, hj⟩ | ⟨m, hm⟩
        · obtain ⟨r, hr, -⟩ := hi.extends_path
          obtain ⟨r', hr', -⟩ := hj.extends_path
          exact common_of_apart hij (hr ▸ List.prefix_append ms r) (hr' ▸ List.prefix_append ms r')
        · generalize hw : ns = w at hm
          cases hm with
          | refl => exact absurd hw hns
          | extension hp _ =>
              rw [prefixNibs_toEncodedPath, Except.ok.injEq] at hp
              rw [← hp]
              exact List.prefix_append ms _
      obtain rfl := hsub.eq_of_length_le hsup.length_le
      exact ⟨c, rfl⟩

/-- A canonical node that agrees with a full one, and whose digests are those of the nodes
at their places, is a pruning of it. -/
theorem Canonical.pruning_of_agree {p t : MptNode} (hp : Canonical p) (ht : Full t)
    (hag : AgreesWith p t) (hdig : DigestsOf keccak p t) : Pruning keccak p t := by
  induction hp generalizing t with
  | leaf ns value =>
      have heq : (MptNode.leaf (toEncodedPath ns true) value) = t :=
        Canonical.ext_view (.leaf ns value) ht.canonical fun key => by
          rcases hag key with ⟨f, hf⟩ | heq
          · simp at hf
          · exact heq
      exact heq ▸ .leaf _ _
  | digest d =>
      obtain ⟨m, hm, href⟩ := hdig [] d (.refl _)
      obtain rfl := ht.canonical.nodeAt_nil hm
      exact .cut href
  | @branch cs i j hij hi hj hc ih =>
      have hcan := Canonical.branch hij hi hj hc
      have hlive {x : Nibble} {r : List Nibble} (h : Live (.branch cs) (x :: r)) : ∃ r', Live t (x :: r') :=
        @live_of_live keccak _ _ (.inr hcan) ht hag hdig [] _ _ _ rfl h
      obtain ⟨i', j', s, s', hne, hs, hs'⟩ := hcan.branch_live
      obtain ⟨r, hr⟩ := hlive hs
      obtain ⟨r', hr'⟩ := hlive hs'
      have hnil : t.getInternal [] = .ok none := by
        rcases hag [] with ⟨f, hf⟩ | heq
        · cases hf
        · rw [← heq]
          rfl
      obtain ⟨ts, rfl⟩ := ht.canonical.branch_of_view hnil hne hr hr'
      apply pruning_branch_iff.mpr
      intro x
      have hagx (key : List Nibble) := hag (x :: key)
      simp only [getInternal_branch_cons] at hagx
      have htx {b : MptNode} (hb : ts x = some b) : Full b := by
        cases ht with
        | branch _ _ _ hall => exact hall x b hb
      cases hcx : cs x with
      | none =>
          cases htx' : ts x with
          | none => exact pruningChild_none
          | some b =>
              obtain ⟨key, hk⟩ := (htx htx').canonical.exists_live
              rcases hagx key with ⟨f, hf⟩ | heq
              · simp [hcx] at hf
              · rw [hcx, htx', getChild_none, getChild_some] at heq
                exact absurd heq.symm hk
      | some c =>
          obtain ⟨key, hk⟩ := (hc x c hcx).exists_live
          obtain ⟨r, hr⟩ := hlive (x := x) (r := key) (by simpa [Live, hcx] using hk)
          obtain ⟨b, hb, -⟩ := hr.child
          rw [hb]
          refine pruningChild_some.mpr (ih x c hcx (htx hb) (?_) (hdig.child hcx hb))
          intro key
          simpa [hcx, hb] using hagx key
  | @extension ns child hns hkind hc ih =>
      obtain ⟨c, rfl⟩ := extension_of_agree (.extension hns hkind hc) ht hag hdig
      have htc : Full c := by
        generalize hn : MptNode.extension (toEncodedPath ns false) c = n at ht
        cases ht with
        | leaf | branch => cases hn
        | extension _ _ hf =>
            obtain ⟨-, rfl⟩ := MptNode.extension.inj hn
            exact hf
      exact .extension _ (ih htc (fun key => by simpa using hag (ns ++ key)) (hdig.below hns))

theorem CanonicalTrie.pruning_of_agree {p t : MptNode} (hp : CanonicalTrie p) (ht : FullTrie t)
    (hag : AgreesWith p t) (hdig : DigestsOf keccak p t) : Pruning keccak p t := by
  rcases ht with rfl | ht
  · rcases hp with rfl | hp
    · exact .null
    · obtain ⟨key, hk⟩ := hp.exists_live
      rcases hag key with ⟨f, hf⟩ | heq
      · obtain ⟨way, d, -, hat, -⟩ := hp.error_digest hf
        obtain ⟨m, hm, href⟩ := hdig way d hat
        cases hm
        exact absurd rfl (ne_null_of_reference href)
      · exact absurd heq hk
  · rcases hp with rfl | hp
    · obtain ⟨key, hk⟩ := ht.canonical.exists_live
      rcases hag key with ⟨f, hf⟩ | heq
      · cases hf
      · exact absurd heq.symm hk
    · exact hp.pruning_of_agree ht hag hdig

/-- The digests of a pruning lie where the nodes are that they stand for. -/
theorem Pruning.digestsOf {p t : MptNode} (h : Pruning keccak p t) : DigestsOf keccak p t := by
  intro way d hat
  induction h generalizing way with
  | @cut t e hd =>
      cases hat
      exact ⟨t, .refl t, hd⟩
  | null | leaf => cases hat
  | @branch cs ts hs hc ih =>
      cases hat with
      | @branch _ i c _ way hci hat =>
          rcases PruningChild.cases ⟨hs i, hc i⟩ with ⟨h₁, -⟩ | ⟨c', t, h₁, h₂, -⟩
          · rw [hci] at h₁
            cases h₁
          · obtain rfl : c = c' := Option.some.inj (hci.symm.trans h₁)
            obtain ⟨m, hm, href⟩ := ih i c t hci h₂ way hat
            exact ⟨m, .branch h₂ hm, href⟩
  | @extension path c t _ ih =>
      cases hat with
      | extension hp hat =>
          obtain ⟨m, hm, href⟩ := ih _ hat
          exact ⟨m, .extension hp hm, href⟩

end Agree

end RethProcessor
