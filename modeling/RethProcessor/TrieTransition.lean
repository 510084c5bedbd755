import RethProcessor.TrieFromProof
import RethProcessor.TrieStore

/-! Tries from transition proofs. The proofs before a batch of updates, with what the
exclusion proofs after it end in, are enough to make the batch, in any order. -/
namespace RethProcessor
open Paths Rlp Writes Calls

section Keccak
variable (keccak : Bytes → B256)

/-- The nodes that `transition_proofs_to_tries` puts in the store of one trie, from honest proofs. -/
def transitionNodes (t t' : MptNode) (keys : List Bytes) (ops : List Op) :
    Except ProofFailure (List MptNode) := do
  let shown ← keys.mapM fun key => checkedProof keccak (honestProof keccak t key)
  let orphans ← ops.mapM fun op => addOrphanedLeafs keccak op.key (honestProof keccak t' op.key)
  .ok (shown.flatten ++ orphans.flatten)

/-- The encodings of the two tries and of the nodes in the store that are hashed. -/
def transitionEncodings (t t' : MptNode) (keys : List Bytes) (ops : List Op) : Set Bytes :=
  encodings keccak t ∪ encodings keccak t' ∪
    {e | 32 ≤ e.length ∧ ∃ nodes, transitionNodes keccak t t' keys ops = .ok nodes ∧
      ∃ m ∈ nodes, m.encode keccak = e}

end Keccak

/-- A batch of updates of distinct 32-byte keys that takes one full trie to another. -/
structure Transition (t : MptNode) (ops : List Op) (t' : MptNode) : Prop where
  full : FullTrieOver 64 t
  writes : ∀ op ∈ ops, op.key.length = 32 ∧ op.value ≠ some []
  distinct : (ops.map Op.key).Nodup
  run : ∃ replies, t.performAll ops = .ok (replies, t')

section Views
variable {t t' : MptNode} {ops : List Op}

theorem points_nodup (h : (ops.map Op.key).Nodup) : ((ops.map Op.point).map Prod.fst).Nodup := by
  rw [List.map_map]
  have := h.map (f := toNibs) fun a b hab => toNibs_inj.mp hab
  rwa [List.map_map] at this

theorem mem_points {key : List Nibble} :
    key ∈ (ops.map Op.point).map Prod.fst ↔ ∃ op ∈ ops, toNibs op.key = key := by
  simp [Op.point]

namespace Transition

theorem view (h : Transition t ops t') :
    SparseTrie 64 t' ∧ t'.getInternal = overlay t.getInternal (ops.map Op.point) := by
  obtain ⟨replies, m, hrun, hm, hview⟩ := h.full.sparse.performAll h.writes fun op _ =>
    h.full.full.answers (toNibs op.key)
  obtain ⟨replies', hrun'⟩ := h.run
  rw [hrun, Except.ok.injEq, Prod.mk.injEq] at hrun'
  obtain ⟨-, rfl⟩ := hrun'
  exact ⟨hm, hview⟩

/-- Outside the batch nothing changes. -/
theorem frame (h : Transition t ops t') {key : List Nibble} (hkey : ∀ op ∈ ops, toNibs op.key ≠ key) :
    t'.getInternal key = t.getInternal key := by
  rw [h.view.2]
  apply overlay_of_not_mem
  rw [mem_points]
  rintro ⟨op, hop, heq⟩
  exact hkey op hop heq

theorem get_written (h : Transition t ops t') {op : Op} (hop : op ∈ ops) :
    t'.get op.key = .ok op.value := by
  rw [MptNode.get, h.view.2]
  exact overlay_of_mem (points_nodup h.distinct) (List.mem_map_of_mem hop)

theorem answers (h : Transition t ops t') (key : List Nibble) : ∃ o, t'.getInternal key = .ok o := by
  by_cases hkey : ∃ op ∈ ops, toNibs op.key = key
  · obtain ⟨op, hop, rfl⟩ := hkey
    exact ⟨_, h.get_written hop⟩
  · rw [h.frame fun op hop heq => hkey ⟨op, hop, heq⟩]
    exact h.full.full.answers key

theorem full' (h : Transition t ops t') : FullTrie t' := h.view.1.canonical.full h.answers

/-- A key that the batch has removed is one of the batch. -/
theorem deleted (h : Transition t ops t') {key : List Nibble} (hlive : Live t key)
    (hdead : t'.getInternal key = .ok none) : ∃ op ∈ ops, toNibs op.key = key ∧ t'.get op.key = .ok none := by
  by_contra hno
  have hframe : t'.getInternal key = t.getInternal key :=
    h.frame fun op hop heq => hno ⟨op, hop, heq, by rwa [MptNode.get, heq]⟩
  exact hlive (hframe.symm.trans hdead)

end Transition

end Views

section Batch
variable {keccak : Bytes → B256} {t t' : MptNode} {ops : List Op} {keys : List Bytes} {store : NodeStore}

/-- A store that has what the keys pass, and what the proofs of the removed keys can be
shortened to. -/
structure Suffices (keccak : Bytes → B256) (store : NodeStore) (t t' : MptNode) (keys : List Bytes)
    (ops : List Op) : Prop where
  shown : ∀ key ∈ keys, ∀ way m d, NodeAt t way m → way <+: toNibs key →
    m.reference keccak = .digest d → store (.digest d) ≠ none
  orphans : ∀ op ∈ ops, t'.get op.key = .ok none → ∀ above below rest m d,
    NodeAt t' above (m.prepend below) → toNibs op.key = above ++ rest →
    (m.prepend below).hashedOnWay keccak rest = [] → Canonical m → m.isBranch = false →
    m.isDigest = false → m.reference keccak = .digest d → store (.digest d) ≠ none

theorem hashedOnWay_prepend_of_not {m : MptNode} (hm : Canonical m) (hbr : m.isBranch = false)
    (hd : m.isDigest = false) {below key : List Nibble} (h : ¬ below <+: key) :
    (m.prepend below).hashedOnWay keccak key = [] := by
  cases hm with
  | branch => cases hbr
  | digest => cases hd
  | leaf ns value => simp only [MptNode.prepend, MptNode.hashedOnWay]
  | @extension ns child =>
      simp only [MptNode.prepend, pathNibs_toEncodedPath]
      exact hashedOnWay_extension_of_not (fun hp => h ((List.prefix_append below ns).trans hp)) child

theorem Canonical.sibling {children : Nibble → Option MptNode} (h : Canonical (.branch children))
    (i : Nibble) : ∃ j tail, j ≠ i ∧ Live (.branch children) (j :: tail) := by
  obtain ⟨a, b, s, s', hab, ha, hb⟩ := h.branch_live
  by_cases hai : a = i
  · exact ⟨b, s', fun hbi => hab (hai.trans hbi.symm), hb⟩
  · exact ⟨a, s, hai, ha⟩

/-- A trie with a node that is referenced by digest is not empty. -/
theorem FullTrie.of_nodeAt {t m : MptNode} (ht : FullTrie t) {way : List Nibble} (hat : NodeAt t way m)
    {d : B256} (href : m.reference keccak = .digest d) : Full t := by
  rcases ht with rfl | ht
  · cases hat
    cases href
  · exact ht

/-- A node that the store lacks and that no update passes is still there after the batch:
had its parent collapsed, the proof of a removed sibling would have shown it. -/
theorem Transition.kept (h : Transition t ops t') (hs : Suffices keccak store t t' keys ops)
    {way : List Nibble} {m : MptNode} {d : B256} (hat : NodeAt t way m)
    (href : m.reference keccak = .digest d) (hmiss : store (.digest d) = none)
    (hfar : ∀ op ∈ ops, ¬ way <+: toNibs op.key) : NodeAt t' way m := by
  have hfull := h.full.full.of_nodeAt hat href
  have hm := hat.full hfull
  have hview (rest : List Nibble) : t'.getInternal (way ++ rest) = m.getInternal rest := by
    rw [h.frame (fun op hop heq => hfar op hop ⟨rest, heq.symm⟩), hat.getInternal]
  obtain ⟨rest, hlive⟩ := hm.canonical.exists_live
  have hlive' : Live t' (way ++ rest) := by rwa [Live, hview]
  have hfull' : Full t' := by
    rcases h.full' with rfl | hfull'
    · exact absurd rfl hlive'
    · exact hfull'
  rcases hfull'.nodeAt_or_inside hlive' with ⟨m', hat'⟩ | ⟨above, below, m', rfl, hb, hcan, hkind, hat'⟩
  · obtain rfl : m = m' := by
      apply hm.canonical.ext_view (hat'.canonical hfull'.canonical)
      intro rest
      rw [← hview, hat'.getInternal]
    exact hat'
  · obtain rfl : m = m' := by
      apply hm.canonical.ext_view hcan
      intro rest
      rw [← hview, List.append_assoc, hat'.getInternal, CanonicalTrie.getInternal_prepend (.inr hcan),
        getInternal_extension_append]
    exfalso
    obtain ⟨up, i, children, hway, hbr, -⟩ := hat.parent_branch hfull.canonical hkind hm.isDigest
      (by simp [hb])
    obtain ⟨below, x, rfl⟩ := (List.eq_nil_or_concat below).resolve_left hb
    rw [List.concat_eq_append, ← List.append_assoc] at hway
    obtain ⟨rfl, hx⟩ := List.append_inj' hway rfl
    obtain rfl : x = i := by simpa using hx
    obtain ⟨j, tail, hji, hj⟩ := (hbr.canonical hfull.canonical).sibling x
    rw [List.concat_eq_append] at hat'
    have hpart : ¬ below ++ [x] <+: below ++ j :: tail := by
      simpa using hji.symm
    have hdead : t'.getInternal ((above ++ below) ++ j :: tail) = .ok none := by
      rw [List.append_assoc, hat'.getInternal, CanonicalTrie.getInternal_prepend (.inr hcan),
        getInternal_extension_of_not hpart]
    obtain ⟨op, hop, hkey, hget⟩ := h.deleted (by rwa [Live, hbr.getInternal]) hdead
    exact hs.orphans op hop hget above _ _ m d hat' (by rw [hkey, List.append_assoc])
      (hashedOnWay_prepend_of_not hcan hkind hm.isDigest hpart) hcan hkind hm.isDigest href hmiss

/-- The nodes of the proofs parse, are decoded nodes, and suffice in any order. -/
theorem Transition.nodes (h : Transition t ops t') (haddr : Addressable keccak t)
    (haddr' : Addressable keccak t') (htwin : Untwinned keccak t) (htwin' : Untwinned keccak t')
    (keys : List Bytes) :
    ∃ nodes, transitionNodes keccak t t' keys ops = .ok nodes ∧ (∀ n ∈ nodes, Decoded keccak n) ∧
      ∀ stored, (∀ n ∈ nodes, n ∈ stored) → Suffices keccak (storeOf keccak stored) t t' keys ops := by
  have hshow (key : Bytes) := h.full.full.checkedProof haddr htwin key
  have hend (key : Bytes) : ∃ last, (t' :: t'.hashedOnWay keccak (toNibs key)).getLast? = some last ∧
      Subnode last t' := by
    have hlast := List.getLast?_eq_some_getLast (List.cons_ne_nil t' (t'.hashedOnWay keccak (toNibs key)))
    exact ⟨_, hlast, subnode_of_mem_proof (List.getLast_mem _)⟩
  have horphans (op : Op) : ∃ nodes, addOrphanedLeafs keccak op.key (honestProof keccak t' op.key) = .ok nodes ∧
      ∀ n ∈ nodes, Decoded keccak n := by
    obtain ⟨o, ho⟩ := h.answers (toNibs op.key)
    cases o with
    | some value => exact ⟨[], h.full'.addOrphanedLeafs_stored haddr' htwin' ho, by simp⟩
    | none =>
        obtain ⟨last, hlast, hsub⟩ := hend op.key
        obtain ⟨nodes, hnodes, hdec⟩ := (@FullTrie.decoded keccak _ (h.full'.subnode hsub)).shortenNodePath
        refine ⟨nodes, ?_, hdec⟩
        rw [h.full'.addOrphanedLeafs_absent haddr' htwin' ho hlast, hnodes]
        rfl
  obtain ⟨shown, hshown, hmem⟩ := mapM_lists (l := keys) fun key _ => ⟨_, hshow key⟩
  obtain ⟨orphans, ho, hmemo⟩ := mapM_lists (l := ops) fun op _ => (horphans op).imp fun _ ho => ho.1
  have hok : transitionNodes keccak t t' keys ops = .ok (shown.flatten ++ orphans.flatten) := by
    simp only [transitionNodes, hshown, ho, bind, Except.bind]
  refine ⟨_, hok, ?_, fun stored hstored => ⟨?_, ?_⟩⟩
  · intro n hn
    rcases List.mem_append.mp hn with hn | hn
    · obtain ⟨key, -, ns, hns, hn⟩ := (hmem n).mp hn
      rw [hshow, Except.ok.injEq] at hns
      rw [← hns] at hn
      obtain ⟨m, hm, rfl⟩ := List.mem_map.mp hn
      exact (h.full.full.subnode (subnode_of_mem_proof hm)).decoded
    · obtain ⟨op, -, ns, hns, hn⟩ := (hmemo n).mp hn
      obtain ⟨ns', hns', hdec⟩ := horphans op
      rw [hns', Except.ok.injEq] at hns
      exact hdec n (hns ▸ hn)
  · intro key hkey way m d hat hway href
    obtain ⟨rest, hrest⟩ := hway
    have hin : m.trunc keccak ∈ shown.flatten := (hmem _).mpr ⟨key, hkey, _, hshow key,
      List.mem_map_of_mem (hrest ▸ hat.mem_hashedOnWay href rest)⟩
    rw [← href, ← reference_trunc]
    exact storeOf_ne_none (hstored _ (List.mem_append_left _ hin))
  · intro op hop hget above below rest m d hat hkey hend hcan hkind hdig href
    obtain ⟨e, he⟩ := reference_prepend hcan hkind hdig href below
    obtain ⟨nodes, hnodes, hm⟩ := @mem_shortenNodePath keccak m hcan hkind hdig below
    have hlast := hat.getLast?_hashedOnWay he hend
    rw [← hkey] at hlast
    have hadd := h.full'.addOrphanedLeafs_absent haddr' htwin' hget hlast
    rw [hnodes] at hadd
    have hin : m.trunc keccak ∈ orphans.flatten := (hmemo _).mpr ⟨op, hop, nodes, hadd, hm⟩
    rw [← href, ← reference_trunc]
    exact storeOf_ne_none (hstored _ (List.mem_append_right _ hin))

theorem notResolved_inj {d e : B256} (h : notResolved d = notResolved e) : d = e := by
  simpa [notResolved] using h

section Revealed
variable {p : MptNode}

/-- The keys that the store shows are answered as in the trie. -/
theorem Suffices.get_eq (hs : Suffices keccak store t t' keys ops) (hp : Revealed keccak store p t)
    (hcan : CanonicalTrie p) {key : Bytes} (hkey : key ∈ keys) : p.get key = t.get key := by
  rcases hp.pruning.getInternal (toNibs key) with ⟨d, hd⟩ | heq
  · obtain ⟨way, e, hway, hat, -⟩ := hcan.error_digest hd
    obtain ⟨hmiss, m, hm, href⟩ := hp.digest hat
    exact absurd hmiss (hs.shown key hkey way m e hm hway href)
  · exact heq

/-- A pruning is a sparse trie over the keys of the trie. -/
theorem Pruning.sparse {p t : MptNode} {depth : Nat} (h : Pruning keccak p t)
    (ht : FullTrieOver depth t) : SparseTrie depth p := by
  have hcan := h.canonicalTrie ht.full.canonical
  refine ⟨hcan, ?_, ?_⟩
  · intro key value hk
    rcases h.getInternal key with ⟨d, hd⟩ | heq
    · rw [hd] at hk
      cases hk
    · exact ht.length key (by rw [Live, ← heq, hk]; simp)
  · intro key f hf
    obtain ⟨way, d, hway, hat, rfl⟩ := hcan.error_digest hf
    obtain ⟨m, hm, href⟩ := h.digestsOf way d hat
    have hfull : Full m := hm.full (ht.full.of_nodeAt hm href)
    obtain ⟨rest, hlive⟩ := hfull.canonical.exists_live
    have hlen := ht.length (way ++ rest) (by rwa [Live, hm.getInternal])
    rw [List.length_append] at hlen
    exact ⟨way, hway, by omega, hat.getInternal_self⟩

/-- A digest that is left after a batch stands where it stood before, on the way to no key of it. -/
theorem digest_stays {p' : MptNode} (hcan : CanonicalTrie p) (hcan' : CanonicalTrie p')
    (hframe : ∀ key, (∀ op ∈ ops, toNibs op.key ≠ key) → p'.getInternal key = p.getInternal key)
    (hwritten : ∀ op ∈ ops, p'.getInternal (toNibs op.key) = .ok op.value)
    (hanswer : ∀ op ∈ ops, ∃ o, p.getInternal (toNibs op.key) = .ok o) {way : List Nibble} {d : B256}
    (hat : NodeAt p' way (.digest d)) :
    NodeAt p way (.digest d) ∧ ∀ op ∈ ops, ¬ way <+: toNibs op.key := by
  have herr := hat.getInternal_self
  have hnot : ∀ op ∈ ops, toNibs op.key ≠ way := by
    rintro op hop rfl
    rw [hwritten op hop] at herr
    cases herr
  obtain ⟨short, e, hshort, hat', he⟩ := hcan.error_digest ((hframe way hnot).symm.trans herr)
  obtain rfl := notResolved_inj he
  have hfar : ∀ op ∈ ops, ¬ short <+: toNibs op.key := by
    rintro op hop ⟨rest, hrest⟩
    obtain ⟨o, ho⟩ := hanswer op hop
    rw [← hrest, hat'.getInternal] at ho
    cases ho
  -- `p'` fails at `short` too, so that its digest is no further down
  have hget' := (hframe short fun op hop heq => hfar op hop ⟨[], by simp [heq]⟩).trans hat'.getInternal_self
  obtain ⟨shorter, e, hpre, hat'', -⟩ := hcan'.error_digest hget'
  have hcan'' : Canonical p' := by
    rcases hcan' with rfl | hcan'
    · cases herr
    · exact hcan'
  obtain rfl := hcan''.digest_eq hat hat'' (hpre.trans hshort)
  obtain rfl : short = shorter := hshort.eq_of_length_le hpre.length_le
  exact ⟨hat', hfar⟩

/-- Made on what the store reveals, in any order, the batch succeeds and ends in a pruning
of where it takes the trie. -/
theorem Transition.follows (h : Transition t ops t') (hs : Suffices keccak store t t' keys ops)
    (hkeys : ∀ op ∈ ops, op.key ∈ keys) (hp : Revealed keccak store p t) {order : List Op}
    (horder : order.Perm ops) :
    ∃ replies p', p.performAll order = .ok (replies, p') ∧ Pruning keccak p' t' := by
  have hsparse := hp.pruning.sparse h.full
  have hknown {op : Op} (hop : op ∈ ops) : p.getInternal (toNibs op.key) = t.getInternal (toNibs op.key) :=
    hs.get_eq hp hsparse.canonical (hkeys op hop)
  have hanswer {op : Op} (hop : op ∈ ops) : ∃ o, p.getInternal (toNibs op.key) = .ok o := by
    rw [hknown hop]
    exact h.full.full.answers _
  obtain ⟨replies, p', hrun, hsparse', hview⟩ := hsparse.performAll
    (fun op hop => h.writes op (horder.mem_iff.mp hop)) fun op hop => hanswer (horder.mem_iff.mp hop)
  rw [overlay_perm (points_nodup ((horder.map Op.key).nodup_iff.mpr h.distinct)) (horder.map _)] at hview
  have hframe {key : List Nibble} (hkey : ∀ op ∈ ops, toNibs op.key ≠ key) :
      p'.getInternal key = p.getInternal key := by
    rw [hview]
    apply overlay_of_not_mem
    rw [mem_points]
    rintro ⟨op, hop, heq⟩
    exact hkey op hop heq
  have hwritten {op : Op} (hop : op ∈ ops) : p'.getInternal (toNibs op.key) = .ok op.value := by
    rw [hview]
    exact overlay_of_mem (points_nodup h.distinct) (List.mem_map_of_mem hop)
  refine ⟨replies, p', hrun, hsparse'.canonical.pruning_of_agree h.full' (?_) ?_⟩
  · intro key
    by_cases hkey : ∃ op ∈ ops, toNibs op.key = key
    · obtain ⟨op, hop, rfl⟩ := hkey
      exact .inr ((hwritten hop).trans (h.get_written hop).symm)
    · have hnot : ∀ op ∈ ops, toNibs op.key ≠ key := by
        intro op hop heq
        exact hkey ⟨op, hop, heq⟩
      rw [hframe hnot, h.frame hnot]
      rcases hp.pruning.getInternal key with ⟨d, hd⟩ | heq
      · exact .inl ⟨_, hd⟩
      · exact .inr heq
  · intro way d hat
    obtain ⟨hat', hfar⟩ := digest_stays hsparse.canonical hsparse'.canonical (fun key hkey => hframe hkey)
      (fun op hop => hwritten hop) (fun op hop => hanswer hop) hat
    obtain ⟨hmiss, m, hm, href⟩ := hp.digest hat'
    exact ⟨m, h.kept hs hm href hmiss hfar, href⟩

end Revealed

/-- The honest proofs of the keys before a batch, with the shortened last nodes of the
exclusion proofs after it, resolve to a trie with the same hash that answers those keys and
on which the batch succeeds in every order, with the hash of the full trie after it. -/
theorem transition_resolves (h : Transition t ops t') (hkeys : ∀ op ∈ ops, op.key ∈ keys)
    (haddr : Addressable keccak t) (haddr' : Addressable keccak t') (htwin : Untwinned keccak t)
    (htwin' : Untwinned keccak t') (hinj : Set.InjOn keccak (transitionEncodings keccak t t' keys ops)) :
    ∃ nodes root, transitionNodes keccak t t' keys ops = .ok nodes ∧
      MptNode.decode (t.toRlp keccak) = .ok root ∧ ∀ stored, (∀ n, n ∈ stored ↔ n ∈ nodes) →
        ∃ p, Resolves (storeOf keccak stored) root p ∧ p.hash keccak = t.hash keccak ∧
          (∀ key ∈ keys, p.get key = t.get key) ∧ ∀ order, order.Perm ops →
            ∃ replies p', p.performAll order = .ok (replies, p') ∧ p'.hash keccak = t'.hash keccak := by
  obtain ⟨nodes, hnodes, hdec, hsuff⟩ := h.nodes haddr haddr' htwin htwin' keys
  refine ⟨nodes, _, hnodes, h.full.full.decode haddr, ?_⟩
  intro stored hstored
  have hfaith : Faithful keccak (storeOf keccak stored) t := by
    refine h.full.full.faithful haddr (fun n hn => hdec n ((hstored n).mp hn)) (hinj.mono ?_)
    apply Set.union_subset_union Set.subset_union_left
    rintro e ⟨hlen, m, hm, he⟩
    exact ⟨hlen, nodes, hnodes, m, (hstored m).mp hm, he⟩
  have hs := hsuff stored fun n hn => (hstored n).mpr hn
  obtain ⟨p, hres, hrev⟩ := h.full.full.resolves hfaith
  refine ⟨p, hres, hrev.pruning.hash_eq, ?_, ?_⟩
  · intro key hkey
    exact hs.get_eq hrev (hrev.pruning.canonicalTrie h.full.full.canonical) hkey
  · intro order horder
    obtain ⟨replies, p', hrun, hpr⟩ := h.follows hs hkeys hrev horder
    exact ⟨replies, p', hrun, hpr.hash_eq⟩

end Batch

section Sample

/-- The leaf that the deletion of the other key of `twoLeaves` leaves, with its path cut short. -/
def orphan (i : Nat) : MptNode :=
  .leaf (toEncodedPath (((1 : Nibble) :: List.replicate 63 0).drop i) true) [2]

/-- The digests of the encodings in the example. -/
def orphanDigests : List B256 :=
  [keptDigest, twoLeavesDigest,
    ⟨[0x99, 0x78, 0x5c, 0x86, 0x26, 0x57, 0xf6, 0xcd, 0x43, 0xed, 0x86, 0x04, 0x67, 0x9d, 0x9f, 0x8f,
      0x33, 0xd5, 0x98, 0x6b, 0xc7, 0xcf, 0x63, 0x22, 0x72, 0xdb, 0xb5, 0xd2, 0x31, 0xe4, 0x4c, 0xdb], rfl⟩,
    cutDigest, secondDigest,
    ⟨[0xd4, 0x1c, 0xea, 0x10, 0x9d, 0x5e, 0x7b, 0xa8, 0xdf, 0x6f, 0x57, 0x15, 0x3e, 0x7f, 0xe0, 0x6a,
      0xf1, 0x85, 0xa6, 0xfa, 0x8c, 0x43, 0x34, 0xc4, 0x66, 0x22, 0x4e, 0xf3, 0x65, 0x5a, 0xb6, 0xdb], rfl⟩,
    ⟨[0xd2, 0x76, 0x5f, 0x8d, 0x7f, 0x76, 0x5f, 0x4c, 0x10, 0xe5, 0xb3, 0xc8, 0xa7, 0xa0, 0xcd, 0xc7,
      0xed, 0xe5, 0x44, 0x21, 0x33, 0x3e, 0x1f, 0xa3, 0x26, 0x20, 0xf7, 0xe9, 0xcd, 0xbd, 0x04, 0xfa], rfl⟩,
    ⟨[0x80, 0x05, 0xdd, 0xa2, 0xc3, 0x02, 0xc1, 0x7a, 0x0f, 0x10, 0xa9, 0x9b, 0x9f, 0x77, 0xf1, 0xca,
      0x9d, 0xb5, 0x52, 0xf0, 0x8f, 0xd5, 0x90, 0xa4, 0x16, 0x41, 0xd8, 0x66, 0x21, 0x4f, 0x6e, 0x8e], rfl⟩,
    ⟨[0x03, 0x80, 0x57, 0x02, 0xb0, 0x0a, 0xdd, 0x4d, 0x5b, 0xd0, 0xe3, 0xd2, 0x27, 0x3d, 0xd2, 0x39,
      0xbb, 0x29, 0x72, 0x64, 0xa9, 0x83, 0xf8, 0xa6, 0x8d, 0x74, 0xb4, 0xcf, 0x7a, 0x0d, 0xf2, 0x77], rfl⟩,
    ⟨[0x81, 0xc0, 0x8d, 0x26, 0xbc, 0x10, 0x27, 0xe0, 0x87, 0xcf, 0xd2, 0x13, 0x76, 0x1b, 0xd1, 0x01,
      0xa5, 0xa8, 0x6e, 0x40, 0xe1, 0x08, 0xc6, 0x50, 0x23, 0xae, 0xfc, 0x77, 0x16, 0x01, 0x04, 0xbb], rfl⟩,
    ⟨[0x09, 0xd5, 0x44, 0xaa, 0x02, 0xa8, 0xef, 0x34, 0xc3, 0x63, 0x33, 0x6b, 0x9b, 0xba, 0x22, 0x53,
      0x83, 0x2a, 0xa3, 0xa3, 0x06, 0xaa, 0xe1, 0xed, 0x2f, 0x01, 0x35, 0x50, 0xf0, 0x89, 0x7c, 0x31], rfl⟩]

/-- The encodings themselves: of the leaf that is deleted, of the root
and of the other leaf, with all paths that are long enough. -/
def orphanEncodings : List Bytes :=
  [[0xe2, 0xa0, 0x30] ++ List.replicate 31 0 ++ [1],
    [0xf8, 0x51, 0xa0] ++ (orphanDigests.headD EMPTY_ROOT).bytes ++ [0xa0] ++ cutDigest.bytes ++ List.replicate 15 0x80] ++
  (List.range 9).map fun i => (orphan i).encode fun _ => EMPTY_ROOT

def orphanKeccak : Bytes → B256 := tableKeccak (orphanEncodings.zip orphanDigests)

theorem transition_twoLeaves : Transition twoLeaves [.delete (List.replicate 32 0)] (orphan 0) where
  full := fullTrieOver_twoLeaves
  writes := by decide
  distinct := by decide
  run := ⟨[true], rfl⟩

theorem encodings_twoLeaves {e : Bytes} (h : e ∈ encodings orphanKeccak twoLeaves) : e ∈ orphanEncodings := by
  rcases encodings_pair h with rfl | rfl | rfl
  · decide +kernel
  · decide +kernel
  · decide +kernel

theorem encodings_orphan {e : Bytes} (h : e ∈ encodings orphanKeccak (orphan 0)) : e ∈ orphanEncodings := by
  rw [orphan, encodings_leaf, Set.mem_singleton_iff] at h
  rw [h]
  decide +kernel

theorem stored_twoLeaves : (transitionNodes orphanKeccak twoLeaves (orphan 0) [List.replicate 32 0]
      [.delete (List.replicate 32 0)]).toOption.all (fun nodes => nodes.all fun n =>
        decide ((n.encode orphanKeccak).length < 32 ∨ n.encode orphanKeccak ∈ orphanEncodings)) = true := by
  decide +kernel

theorem untwinned_twoLeaves : Untwinned orphanKeccak twoLeaves := untwinned_pair (by decide +kernel)

theorem transition_resolves_twoLeaves :
    ∃ nodes root, transitionNodes orphanKeccak twoLeaves (orphan 0) [List.replicate 32 0]
        [.delete (List.replicate 32 0)] = .ok nodes ∧
      MptNode.decode (twoLeaves.toRlp orphanKeccak) = .ok root ∧
      ∀ stored, (∀ n, n ∈ stored ↔ n ∈ nodes) →
        ∃ p, Resolves (storeOf orphanKeccak stored) root p ∧
          p.hash orphanKeccak = twoLeaves.hash orphanKeccak ∧
          (∀ key ∈ [List.replicate 32 0], p.get key = twoLeaves.get key) ∧
          ∀ order, order.Perm [Op.delete (List.replicate 32 0)] →
            ∃ replies p', p.performAll order = .ok (replies, p') ∧
              p'.hash orphanKeccak = (orphan 0).hash orphanKeccak := by
  have hinj : ∀ x ∈ orphanEncodings, ∀ y ∈ orphanEncodings, orphanKeccak x = orphanKeccak y → x = y := by
    decide +kernel
  have hall : Set.InjOn orphanKeccak {e | e ∈ orphanEncodings} := by
    intro x hx y hy
    exact hinj x hx y hy
  have hshort : ∀ e ∈ orphanEncodings, e.length < usizeLimit := by decide +kernel
  refine transition_resolves transition_twoLeaves (by simp [Op.key])
    (fun e he => hshort e (encodings_twoLeaves he)) (fun e he => hshort e (encodings_orphan he))
    untwinned_twoLeaves (untwinned_leaf _ _ _) (hall.mono ?_)
  rintro e ((he | he) | ⟨hlen, nodes, hnodes, m, hm, rfl⟩)
  · exact encodings_twoLeaves he
  · exact encodings_orphan he
  · have hall := stored_twoLeaves
    rw [hnodes] at hall
    have := of_decide_eq_true (List.all_eq_true.mp hall m hm)
    exact this.resolve_left (by omega)

end Sample

end RethProcessor
