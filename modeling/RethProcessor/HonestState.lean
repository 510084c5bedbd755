import RethProcessor.TrieWitness
import RethProcessor.StateBatch
import RethProcessor.SparseState
import RethProcessor.StateProofs
import RethProcessor.StorageReads

/-! The state that the host builds from the proofs of an honest provider, before a transition and
after it: it stands in for the whole state, for the reads and for the update. -/
namespace RethProcessor
open Paths Rlp Calls

/-- The keys of slots, as they stand in the storage trie. -/
def hashedKeys (keccak : Bytes → B256) (keys : List B256) : List Bytes := keys.map fun key => (keccak key.bytes).bytes

/-- The honest proofs of some slots. -/
def honestSlots (keccak : Bytes → B256) (storageTrie : MptNode) (keys : List B256) : List StorageProof :=
  keys.map fun key => ⟨key, honestProof keccak storageTrie (keccak key.bytes).bytes⟩

/-- The proof of an account and of some of its slots, as an honest provider gives it. -/
structure AccountProof.Honest (keccak : Bytes → B256) (stateTrie storageTrie : MptNode) (address : Address)
    (keys : List B256) (proof : AccountProof) : Prop where
  proof_eq : proof.proof = honestProof keccak stateTrie (keccak address.bytes).bytes
  storageProofs : proof.storageProofs = honestSlots keccak storageTrie keys
  declared : proof.declaredRoot = storageTrie.hash keccak

/-- Only the empty trie has its root. -/
def SoleEmpty (keccak : Bytes → B256) (t : MptNode) : Prop := t.hash keccak = EMPTY_ROOT → t = .null

section Storage
variable {keccak : Bytes → B256} {t after : MptNode} {keys modified : List B256}

theorem nodeFromDigest_pruning (ht : FullTrieOver 64 t) (hsole : SoleEmpty keccak t) {digest : B256}
    (h : digest.emptyFromZero = t.hash keccak) : Pruning keccak (nodeFromDigest digest) t := by
  by_cases hnull : t = .null
  · rw [hnull] at h ⊢
    have hempty : digest = EMPTY_ROOT ∨ digest = B256.ZERO := by
      unfold B256.emptyFromZero at h
      split at h
      · next hzero => exact .inr hzero
      · exact .inl h
    rw [nodeFromDigest, if_pos hempty]
    exact .null
  · have hne : ¬ (digest = EMPTY_ROOT ∨ digest = B256.ZERO) := by
      intro hempty
      have hzero : digest.emptyFromZero = EMPTY_ROOT := by
        rcases hempty with rfl | rfl
        · exact ite_self EMPTY_ROOT
        · exact if_pos rfl
      exact hnull (hsole (h.symm.trans hzero))
    rw [B256.emptyFromZero, if_neg fun hzero => hne (.inr hzero)] at h
    rw [nodeFromDigest, if_neg hne, h]
    exact ht.pruning_digest hnull

/-- The bare root stands in for a trie of which nothing is asked. -/
theorem Provable.serves_root {afterKeys : List Bytes} (hp : Provable keccak t after [] afterKeys)
    (hsole : SoleEmpty keccak t) {digest : B256} (h : digest.emptyFromZero = t.hash keccak) :
    Serves keccak t after (nodeFromDigest digest) [] afterKeys := by
  have hpr := nodeFromDigest_pruning hp.full hsole h
  refine ⟨hpr, List.forall_mem_nil _, ?_⟩
  intro ops hbatch hkeys order horder
  have hops : ops = [] := by
    cases ops with
    | nil => rfl
    | cons op ops => exact absurd (hkeys op List.mem_cons_self).1 List.not_mem_nil
  obtain ⟨replies, hrun⟩ := hbatch.run
  rw [hops, MptNode.performAll, Except.ok.injEq, Prod.mk.injEq] at hrun
  rw [hops, List.perm_nil] at horder
  exact ⟨[], _, by rw [horder]; rfl, hrun.2 ▸ hpr⟩

theorem readProof_honest {afterKeys beforeKeys : List Bytes} (hp : Provable keccak t after beforeKeys afterKeys)
    (nodes : List MptNode × MptNode) (key : Bytes) :
    readProof keccak nodes (honestProof keccak t key) = .ok (nodes.1 ++ shownNodes keccak t key, t.trunc keccak) := by
  rw [readProof, hp.checkedProof key]
  rfl

/-- The loop over the proofs of the slots. -/
theorem readSlots_honest {afterKeys beforeKeys : List Bytes} (hp : Provable keccak t after beforeKeys afterKeys)
    (keys : List B256) (nodes : List MptNode) (root : MptNode) :
    Call.Returns ((honestSlots keccak t keys).foldlM
        (fun nodes slot => (liftM (readProof keccak nodes slot.proof) : Call ProofFailure _)) (nodes, root))
      (nodes ++ (hashedKeys keccak keys).flatMap (shownNodes keccak t),
        if keys.isEmpty then root else t.trunc keccak) := by
  induction keys generalizing nodes root with
  | nil =>
      rw [honestSlots, List.map_nil, List.foldlM_nil, returns_pure]
      exact Prod.ext (List.append_nil nodes).symm rfl
  | cons key keys ih =>
      rw [honestSlots, List.map_cons, List.foldlM_cons]
      refine returns_bind.mpr ⟨_, returns_except.mpr (readProof_honest hp _ _), ?_⟩
      have hcons := ih (nodes ++ shownNodes keccak t (keccak key.bytes).bytes) (t.trunc keccak)
      rw [ite_self, List.append_assoc] at hcons
      exact hcons

/-- What the proofs of the slots after the transition end in. -/
theorem addOrphanedSlots_honest {afterKeys beforeKeys : List Bytes} (hp : Provable keccak t after beforeKeys afterKeys)
    (keys : List B256) : ∃ orphans, addOrphanedSlots keccak (honestSlots keccak after keys) = .ok orphans ∧
      ∀ n, n ∈ orphans ↔ ∃ key ∈ hashedKeys keccak keys, ∃ nodes,
        addOrphanedLeafs keccak key (honestProof keccak after key) = .ok nodes ∧ n ∈ nodes := by
  have hall : ∀ slot ∈ honestSlots keccak after keys, ∃ nodes,
      addOrphanedLeafs keccak (keccak slot.key.bytes).bytes slot.proof = .ok nodes := by
    intro slot hslot
    obtain ⟨key, -, rfl⟩ := List.mem_map.mp hslot
    exact (hp.addOrphanedLeafs _).imp fun nodes h => h.1
  obtain ⟨orphans, horphans⟩ := mapM_exists hall
  refine ⟨orphans.flatten, by rw [addOrphanedSlots, horphans]; rfl, ?_⟩
  intro n
  rw [mem_flatten_mapM horphans]
  constructor
  · rintro ⟨slot, hslot, nodes, hnodes, hn⟩
    obtain ⟨key, hkey, rfl⟩ := List.mem_map.mp hslot
    exact ⟨_, List.mem_map_of_mem hkey, nodes, hnodes, hn⟩
  · rintro ⟨hashed, hhashed, nodes, hnodes, hn⟩
    obtain ⟨key, hkey, rfl⟩ := List.mem_map.mp hhashed
    exact ⟨_, List.mem_map_of_mem hkey, nodes, hnodes, hn⟩

/-- From honest proofs the storage trie of an account is built, and stands in for the whole one. -/
theorem buildStorage_honest (hp : Provable keccak t after (hashedKeys keccak keys) (hashedKeys keccak modified))
    (hsole : SoleEmpty keccak t) {stateTrie stateTrie' : MptNode} {address : Address} {proof finiProofs : AccountProof}
    (hproof : proof.Honest keccak stateTrie t address keys)
    (hfini : finiProofs.Honest keccak stateTrie' after address modified) :
    ∃ p enough, (∀ fuel, enough ≤ fuel → (buildStorage keccak fuel address proof finiProofs).Returns p) ∧
      Serves keccak t after p (hashedKeys keccak keys) (hashedKeys keccak modified) := by
  have hdeclared := hproof.declared
  rw [AccountProof.declaredRoot, hproof.storageProofs] at hdeclared
  cases keys with
  | nil =>
      refine ⟨nodeFromDigest proof.storageRoot, 0, ?_, hp.serves_root hsole hdeclared⟩
      intro fuel _
      rw [buildStorage, hproof.storageProofs]
      rfl
  | cons key keys =>
      have hread := readSlots_honest hp (key :: keys) [] default
      obtain ⟨orphans, horphans, hmem⟩ := addOrphanedSlots_honest hp modified
      have hstored := @Provable.stored_of_mem keccak _ _ _ _
        ((hashedKeys keccak (key :: keys)).flatMap (shownNodes keccak t) ++ orphans) hp fun n => by
          rw [List.mem_append, List.mem_flatMap, hmem]
      obtain ⟨p, ⟨enough, hres⟩, hserves⟩ := hstored.serves hp
      refine ⟨p, enough, ?_, hserves⟩
      intro fuel hfuel
      rw [buildStorage, hproof.storageProofs, hfini.storageProofs]
      refine returns_bind.mpr ⟨_, hread, ?_⟩
      refine returns_bind.mpr ⟨orphans, returns_except.mpr horphans, ?_⟩
      refine returns_bind.mpr ⟨p, returns_option.mpr (hres fuel hfuel), ?_⟩
      have hroot : p.hash keccak = proof.storageRoot := by
        rw [hserves.pruning.hash_eq]
        exact hdeclared.symm
      rw [if_pos hroot, returns_pure]

end Storage

/-- The addresses that there are proofs of, as they stand in the state trie. -/
def hashedAddresses (keccak : Bytes → B256) (proofs : List (Σ _ : Address, AccountProof)) : List Bytes :=
  proofs.map fun entry => (keccak entry.1.bytes).bytes

/-- What an honest provider gives for a state and for the one after a transition. The storages after
it are those of the later state, wherever they are looked at. -/
structure HonestProofs (keccak : Bytes → B256) (f f' : EthereumState) (after : B256 → MptNode)
    (keys modified : Address → List B256) (parentProofs : IteratedMap Address AccountProof)
    (proofs : HashMap Address AccountProof) : Prop where
  before : ∀ entry ∈ parentProofs.entries,
    entry.2.Honest keccak f.stateTrie (f.storageTrie (keccak entry.1.bytes)) entry.1 (keys entry.1)
  fini : ∀ entry ∈ parentProofs.entries, ∃ proof, proofs.lookup entry.1 = some proof ∧
    proof.Honest keccak f'.stateTrie (after (keccak entry.1.bytes)) entry.1 (modified entry.1)

/-- The tries of the two states can be proved from, and nothing that is hashed collides. -/
structure ProvableStates (keccak : Bytes → B256) (f f' : EthereumState) (after : B256 → MptNode)
    (keys modified : Address → List B256) (parentProofs : IteratedMap Address AccountProof) : Prop where
  state : Provable keccak f.stateTrie f'.stateTrie (hashedAddresses keccak parentProofs.entries)
    (hashedAddresses keccak parentProofs.entries)
  storage : ∀ entry ∈ parentProofs.entries, Provable keccak (f.storageTrie (keccak entry.1.bytes))
    (after (keccak entry.1.bytes)) (hashedKeys keccak (keys entry.1)) (hashedKeys keccak (modified entry.1))
  soleState : SoleEmpty keccak f.stateTrie
  soleStorage : ∀ entry ∈ parentProofs.entries, SoleEmpty keccak (f.storageTrie (keccak entry.1.bytes))
  distinct : (parentProofs.entries.map fun entry => keccak entry.1.bytes).Nodup
  nonzero : f.stateRoot keccak ≠ B256.ZERO

section Accounts
variable {keccak : Bytes → B256} {f f' : EthereumState} {after : B256 → MptNode}
  {keys modified : Address → List B256} {parentProofs : IteratedMap Address AccountProof}
  {proofs : HashMap Address AccountProof}

/-- What the loop has gathered when some of the accounts are done. -/
structure GathersHonest (keccak : Bytes → B256) (f f' : EthereumState) (after : B256 → MptNode)
    (keys modified : Address → List B256) (done : List (Σ _ : Address, AccountProof)) (acc : Gathered) : Prop where
  nodes : ∀ n, n ∈ acc.stateNodes ↔
    (∃ key ∈ hashedAddresses keccak done, n ∈ shownNodes keccak f.stateTrie key) ∨
    ∃ key ∈ hashedAddresses keccak done, ∃ nodes,
      addOrphanedLeafs keccak key (honestProof keccak f'.stateTrie key) = .ok nodes ∧ n ∈ nodes
  root : acc.stateRootNode = if done.isEmpty then default else f.stateTrie.trunc keccak
  storage : ∀ entry ∈ done, ∃ trie, acc.storage.lookup (keccak entry.1.bytes) = some trie ∧
    Serves keccak (f.storageTrie (keccak entry.1.bytes)) (after (keccak entry.1.bytes)) trie
      (hashedKeys keccak (keys entry.1)) (hashedKeys keccak (modified entry.1))
  known : ∀ h ∈ acc.storage, ∃ entry ∈ done, keccak entry.1.bytes = h

/-- What is looked up of the proofs after the transition. -/
def finiOf (proofs : HashMap Address AccountProof) (address : Address) : Except ProofFailure AccountProof :=
  match proofs.lookup address with
  | some finiProofs => .ok finiProofs
  | none => .error .panic

theorem gathersHonest_nil : GathersHonest keccak f f' after keys modified [] ⟨∅, [], default⟩ where
  nodes n := by simp [hashedAddresses]
  root := rfl
  storage := List.forall_mem_nil _
  known h hmem := absurd hmem Finmap.notMem_empty

/-- One turn of the loop over the accounts. -/
theorem GathersHonest.readAccount (hh : HonestProofs keccak f f' after keys modified parentProofs proofs)
    (hp : ProvableStates keccak f f' after keys modified parentProofs)
    {done : List (Σ _ : Address, AccountProof)} {acc : Gathered} {entry : Σ _ : Address, AccountProof}
    (hg : GathersHonest keccak f f' after keys modified done acc) (hentry : entry ∈ parentProofs.entries)
    (hnew : ∀ e ∈ done, keccak e.1.bytes ≠ keccak entry.1.bytes) :
    ∃ acc' enough, (∀ fuel, enough ≤ fuel →
        (RethProcessor.readAccount keccak fuel (finiOf proofs) acc entry).Returns acc') ∧
      GathersHonest keccak f f' after keys modified (done ++ [entry]) acc' := by
  obtain ⟨finiProofs, hlookup, hfini⟩ := hh.fini entry hentry
  have hbefore := hh.before entry hentry
  obtain ⟨trie, enough, hbuild, hserves⟩ := buildStorage_honest (hp.storage entry hentry) (hp.soleStorage entry hentry)
    hbefore hfini
  obtain ⟨orphans, horphans, -⟩ := hp.state.addOrphanedLeafs (keccak entry.1.bytes).bytes
  have hread := readProof_honest hp.state (acc.stateNodes, acc.stateRootNode) (keccak entry.1.bytes).bytes
  refine ⟨⟨acc.storage.insert (keccak entry.1.bytes) trie,
    (acc.stateNodes ++ shownNodes keccak f.stateTrie (keccak entry.1.bytes).bytes) ++ orphans,
    f.stateTrie.trunc keccak⟩, enough, ?_, ?_, ?_, ?_, ?_⟩
  · intro fuel hfuel
    refine returns_bind.mpr ⟨_, returns_except.mpr (hbefore.proof_eq ▸ hread), ?_⟩
    refine returns_bind.mpr ⟨finiProofs, returns_except.mpr (by rw [finiOf, hlookup]), ?_⟩
    refine returns_bind.mpr ⟨orphans, returns_except.mpr (hfini.proof_eq ▸ horphans), ?_⟩
    exact returns_bind.mpr ⟨trie, hbuild fuel hfuel, returns_pure.mpr rfl⟩
  · intro n
    simp only [hashedAddresses, List.map_append, List.mem_append, hg.nodes n, List.map_cons, List.map_nil,
      or_and_right, exists_or, List.mem_singleton, exists_eq_left, horphans, Except.ok.injEq, exists_eq_left']
    rw [or_assoc, or_or_or_comm]
  · simp
  · intro e he
    rcases List.mem_append.mp he with he | he
    · obtain ⟨old, hold, hs⟩ := hg.storage e he
      exact ⟨old, by rw [Finmap.lookup_insert_of_ne _ (hnew e he), hold], hs⟩
    · rw [List.mem_singleton.mp he]
      exact ⟨trie, Finmap.lookup_insert _, hserves⟩
  · intro h hmem
    rcases Finmap.mem_insert.mp hmem with rfl | hmem
    · exact ⟨entry, List.mem_append_right _ (List.mem_singleton.mpr rfl), rfl⟩
    · obtain ⟨e, he, heq⟩ := hg.known h hmem
      exact ⟨e, List.mem_append_left _ he, heq⟩

/-- The whole loop over the accounts. -/
theorem GathersHonest.foldlM (hh : HonestProofs keccak f f' after keys modified parentProofs proofs)
    (hp : ProvableStates keccak f f' after keys modified parentProofs)
    {todo done : List (Σ _ : Address, AccountProof)} {acc : Gathered}
    (hg : GathersHonest keccak f f' after keys modified done acc) (hall : done ++ todo = parentProofs.entries) :
    ∃ acc' enough, (∀ fuel, enough ≤ fuel →
        (todo.foldlM (RethProcessor.readAccount keccak fuel (finiOf proofs)) acc).Returns acc') ∧
      GathersHonest keccak f f' after keys modified parentProofs.entries acc' := by
  induction todo generalizing done acc with
  | nil =>
      rw [List.append_nil] at hall
      exact ⟨acc, 0, fun fuel _ => returns_pure.mpr rfl, hall ▸ hg⟩
  | cons entry todo ih =>
      have hentry : entry ∈ parentProofs.entries := hall ▸ List.mem_append_right _ List.mem_cons_self
      have hnew : ∀ e ∈ done, keccak e.1.bytes ≠ keccak entry.1.bytes := by
        have hnodup := hp.distinct
        rw [← hall, List.map_append, List.map_cons] at hnodup
        intro e he heq
        exact List.disjoint_of_nodup_append hnodup (List.mem_map_of_mem he) (heq ▸ List.mem_cons_self)
      obtain ⟨acc₁, enough₁, hread, hg₁⟩ := hg.readAccount hh hp hentry hnew
      obtain ⟨acc', enough, hrest, hg'⟩ := ih hg₁ (by rw [List.append_assoc]; exact hall)
      refine ⟨acc', max enough₁ enough, ?_, hg'⟩
      intro fuel hfuel
      rw [List.foldlM_cons]
      exact returns_bind.mpr ⟨acc₁, hread fuel (Nat.le_trans (Nat.le_max_left _ _) hfuel),
        hrest fuel (Nat.le_trans (Nat.le_max_right _ _) hfuel)⟩

/-- A state that stands in for the whole one: for the accounts that there are proofs of, and for
their slots. -/
structure StandsIn (keccak : Bytes → B256) (f f' : EthereumState) (after : B256 → MptNode)
    (keys modified : Address → List B256) (parentProofs : IteratedMap Address AccountProof) (s : EthereumState) :
    Prop where
  state : Serves keccak f.stateTrie f'.stateTrie s.stateTrie (hashedAddresses keccak parentProofs.entries)
    (hashedAddresses keccak parentProofs.entries)
  storage : ∀ entry ∈ parentProofs.entries, ∃ trie, s.storageTries.lookup (keccak entry.1.bytes) = some trie ∧
    Serves keccak (f.storageTrie (keccak entry.1.bytes)) (after (keccak entry.1.bytes)) trie
      (hashedKeys keccak (keys entry.1)) (hashedKeys keccak (modified entry.1))
  known : ∀ h ∈ s.storageTries, ∃ entry ∈ parentProofs.entries, keccak entry.1.bytes = h

/-- From the proofs of an honest provider a state is built, and stands in for the whole one. -/
theorem transition_standsIn (hh : HonestProofs keccak f f' after keys modified parentProofs proofs)
    (hp : ProvableStates keccak f f' after keys modified parentProofs) :
    ∃ s enough, (∀ fuel, enough ≤ fuel →
        (transitionProofsToTries keccak fuel (f.stateRoot keccak) parentProofs proofs).Returns s) ∧
      StandsIn keccak f f' after keys modified parentProofs s := by
  cases hentries : parentProofs.entries with
  | nil =>
      have hroot : (f.stateRoot keccak).emptyFromZero = f.stateTrie.hash keccak := if_neg hp.nonzero
      have hstate := hp.state
      simp only [hentries, hashedAddresses, List.map_nil] at hstate
      refine ⟨⟨nodeFromDigest (f.stateRoot keccak), ∅⟩, 0, ?_, ?_, ?_, ?_⟩
      · intro fuel _
        rw [transitionProofsToTries, buildTries, hentries]
        rfl
      · simp only [hentries, hashedAddresses, List.map_nil]
        exact hstate.serves_root hp.soleState hroot
      · rw [hentries]
        exact List.forall_mem_nil _
      · intro h hmem
        exact absurd hmem Finmap.notMem_empty
  | cons first rest =>
      obtain ⟨acc, enough₁, hfold, hg⟩ := gathersHonest_nil.foldlM hh hp (List.nil_append parentProofs.entries)
      obtain ⟨p, ⟨enough₂, hres⟩, hserves⟩ := (hp.state.stored_of_mem hg.nodes).serves hp.state
      have hroot : acc.stateRootNode = f.stateTrie.trunc keccak := by
        rw [hg.root, hentries]
        rfl
      refine ⟨⟨p, acc.storage⟩, max enough₁ enough₂, ?_, hserves, hg.storage, hg.known⟩
      intro fuel hfuel
      rw [transitionProofsToTries, buildTries, if_neg (by rw [hentries]; exact Bool.false_ne_true)]
      refine returns_bind.mpr ⟨acc, hfold fuel (Nat.le_trans (Nat.le_max_left _ _) hfuel), ?_⟩
      rw [hroot]
      refine returns_bind.mpr ⟨p, returns_option.mpr (hres fuel (Nat.le_trans (Nat.le_max_right _ _) hfuel)), ?_⟩
      have hhash : p.hash keccak = f.stateRoot keccak := hserves.pruning.hash_eq
      rw [if_pos hhash, returns_pure]

end Accounts

section Stands
variable {keccak : Bytes → B256} {codec : AccountCodec} {f f' s : EthereumState} {after : B256 → MptNode}
  {keys modified : Address → List B256} {parentProofs : IteratedMap Address AccountProof} {post : HashedPostState}

/-- Of each account and its slots that are changed there are proofs, before and after. -/
structure Covered (keccak : Bytes → B256) (post : HashedPostState) (keys modified : Address → List B256)
    (parentProofs : IteratedMap Address AccountProof) : Prop where
  accounts : ∀ h ∈ post.accounts, ∃ entry ∈ parentProofs.entries, keccak entry.1.bytes = h
  slots : ∀ entry ∈ parentProofs.entries, ∀ slot ∈ (post.storageOf (keccak entry.1.bytes)).storage.entries,
    ∃ key ∈ modified entry.1, key ∈ keys entry.1 ∧ keccak key.bytes = slot.1

theorem StandsIn.prunes (hs : StandsIn keccak f f' after keys modified parentProofs s) : s.Prunes keccak f := by
  refine ⟨.inl hs.state.pruning, ?_⟩
  intro h trie hl
  obtain ⟨entry, hentry, rfl⟩ := hs.known h (Finmap.mem_of_lookup_eq_some hl)
  obtain ⟨trie', hl', hserves⟩ := hs.storage entry hentry
  obtain rfl := Option.some.inj (hl.symm.trans hl')
  exact .inl hserves.pruning

/-- The account of each proof is read as from the whole state. -/
theorem StandsIn.get_account (hs : StandsIn keccak f f' after keys modified parentProofs s)
    {entry : Σ _ : Address, AccountProof} (hentry : entry ∈ parentProofs.entries) :
    s.stateTrie.get (keccak entry.1.bytes).bytes = f.stateTrie.get (keccak entry.1.bytes).bytes :=
  hs.state.answers _ (List.mem_map_of_mem hentry)

/-- Its tries are sparse. -/
theorem StandsIn.sparse (hs : StandsIn keccak f f' after keys modified parentProofs s)
    (hf : f.Tries (FullTrieOver 64)) : s.Tries (SparseTrie 64) := by
  refine ⟨hs.state.pruning.sparse hf.stateTrie, ?_⟩
  intro h trie hl
  obtain ⟨entry, hentry, rfl⟩ := hs.known h (Finmap.mem_of_lookup_eq_some hl)
  obtain ⟨trie', hl', hserves⟩ := hs.storage entry hentry
  obtain rfl := Option.some.inj (hl.symm.trans hl')
  exact hserves.pruning.sparse (hf.storageTrie kept_fullOver _)

/-- What a storage that is not wiped comes to, on the trie that stands in for it. -/
theorem Serves.updateStorage {t t' p : MptNode} {diff : HashedStorage} {slots modifiedSlots : List Bytes}
    (hserves : Serves keccak t t' p slots modifiedSlots) (ht : FullTrieOver 64 t)
    (hslots : ∀ slot ∈ diff.storage.entries, slot.1.bytes ∈ slots ∧ slot.1.bytes ∈ modifiedSlots)
    (hu : RethProcessor.updateStorage t diff = some t') :
    ∃ p', RethProcessor.updateStorage p diff = some p' ∧ p'.hash keccak = t'.hash keccak := by
  cases hw : diff.wiped with
  | true =>
      refine ⟨t', ?_, rfl⟩
      rw [← hu, RethProcessor.updateStorage, RethProcessor.updateStorage, hw]
      rfl
  | false =>
      have hkeys : ∀ op ∈ diff.storage.entries.map slotOp, op.key ∈ slots ∧ op.key ∈ modifiedSlots := by
        intro op hop
        obtain ⟨slot, hslot, rfl⟩ := List.mem_map.mp hop
        rw [slotOp, opOf_key]
        exact hslots slot hslot
      obtain ⟨replies, p', hrun, hpr⟩ := hserves.follows (EthereumState.transition_slots ht hw hu) hkeys _ (.refl _)
      exact ⟨p', (updateStorage_iff hw).mpr ⟨replies, hrun⟩, hpr.hash_eq⟩

/-- At each address the patch of the state that stands in writes the leaf of the whole one. -/
theorem StandsIn.patchOf (hs : StandsIn keccak f f' after keys modified parentProofs s)
    (hf : f.Tries (FullTrieOver 64)) (hcov : Covered keccak post keys modified parentProofs)
    {entry : Σ _ : B256, Option Account} (hentry : entry ∈ post.accounts.entries)
    (hafter : ∀ account, entry.2 = some account → after entry.1 = f'.storageTrie entry.1)
    (hat : EthereumState.PatchedAt keccak codec post f f' entry.1 entry.2) :
    ∃ q, EthereumState.patchOf keccak codec (post.storageOf entry.1) (s.storageTrie entry.1) entry.2 = some q ∧
      f'.stateTrie.get entry.1.bytes = .ok q.value := by
  obtain ⟨h, account⟩ := entry
  cases account with
  | none =>
      obtain ⟨hget, -⟩ := hat.of_none
      exact ⟨⟨none, none⟩, rfl, hget⟩
  | some account =>
      obtain ⟨trie, htrie, hget, hl⟩ := hat.of_some
      have hmem : h ∈ post.accounts := AList.mem_keys.mpr (List.mem_map_of_mem hentry)
      obtain ⟨address, haddress, rfl⟩ := hcov.accounts h hmem
      obtain ⟨p, hp, hserves⟩ := hs.storage address haddress
      rw [hafter account rfl, EthereumState.storageTrie_of_lookup hl] at hserves
      have hslots : ∀ slot ∈ (post.storageOf (keccak address.1.bytes)).storage.entries,
          slot.1.bytes ∈ hashedKeys keccak (keys address.1) ∧
          slot.1.bytes ∈ hashedKeys keccak (modified address.1) := by
        intro slot hslot
        obtain ⟨key, hmod, hkey, heq⟩ := hcov.slots address haddress slot hslot
        rw [← heq]
        exact ⟨List.mem_map_of_mem hkey, List.mem_map_of_mem hmod⟩
      obtain ⟨p', hp', hhash⟩ := hserves.updateStorage (hf.storageTrie kept_fullOver _) hslots htrie
      refine ⟨_, by rw [EthereumState.patchOf, EthereumState.storageTrie_of_lookup hp, hp']; rfl, ?_⟩
      simp only [EthereumState.leafOf, hhash]
      exact hget

/-- An update of the whole state goes through on the state that stands in for it, and leads to
the same root. -/
theorem StandsIn.update (hs : StandsIn keccak f f' after keys modified parentProofs s)
    (hf : f.Tries (FullTrieOver 64)) (hcodec : ∀ account, codec.encode account ≠ [])
    (hcov : Covered keccak post keys modified parentProofs) (hu : f.update keccak codec post = some f')
    (hafter : ∀ h account, post.accounts.lookup h = some (some account) → after h = f'.storageTrie h) :
    ∃ s', s.update keccak codec post = some s' ∧ Pruning keccak s'.stateTrie f'.stateTrie ∧
      s'.stateRoot keccak = f'.stateRoot keccak := by
  obtain ⟨-, hat, -⟩ := hf.update kept_fullOver hu
  have hpatched {entry : Σ _ : B256, Option Account} (hentry : entry ∈ post.accounts.entries) :
      EthereumState.PatchedAt keccak codec post f f' entry.1 entry.2 := hat _ _ (AList.mem_lookup_iff.mpr hentry)
  -- what stands at an address after the update
  obtain ⟨leaf, hleaf⟩ : ∃ leaf : B256 → Option Bytes, ∀ entry ∈ post.accounts.entries,
      f'.stateTrie.get entry.1.bytes = .ok (leaf entry.1) := by
    refine ⟨fun h => (f'.stateTrie.get h.bytes).toOption.join, ?_⟩
    intro entry hentry
    obtain ⟨p, -, hget, -⟩ := hpatched hentry
    simp only [hget, Except.toOption, Option.join_some]
  have hvalue {entry : Σ _ : B256, Option Account} {o : Option Bytes} (hentry : entry ∈ post.accounts.entries)
      (hget : f'.stateTrie.get entry.1.bytes = .ok o) : o = leaf entry.1 :=
    Except.ok.inj (hget.symm.trans (hleaf entry hentry))
  have hne : ∀ entry ∈ post.accounts.entries, leaf entry.1 ≠ some [] := by
    intro entry hentry
    obtain ⟨p, hp, hget, -⟩ := hpatched hentry
    rw [← hvalue hentry hget]
    cases haccount : entry.2 with
    | none =>
        rw [haccount] at hp
        cases hp
        intro h
        cases h
    | some account =>
        rw [haccount] at hp
        obtain ⟨trie, -, rfl⟩ := Option.map_eq_some_iff.mp hp
        exact fun h => hcodec _ (Option.some.inj h)
  have hwhole : ∀ entry ∈ post.accounts.entries, ∃ q, EthereumState.patchOf keccak codec (post.storageOf entry.1)
      (f.storageTrie entry.1) entry.2 = some q ∧ q.value = leaf entry.1 := by
    intro entry hentry
    obtain ⟨p, hp, hget, -⟩ := hpatched hentry
    exact ⟨p, hp, hvalue hentry hget⟩
  have hpart : ∀ entry ∈ post.accounts.entries, ∃ q, EthereumState.patchOf keccak codec (post.storageOf entry.1)
      (s.storageTrie entry.1) entry.2 = some q ∧ q.value = leaf entry.1 := by
    intro entry hentry
    have hstorage : ∀ account, entry.2 = some account → after entry.1 = f'.storageTrie entry.1 := by
      intro account haccount
      exact hafter entry.1 account (AList.mem_lookup_iff.mpr (haccount ▸ hentry))
    obtain ⟨q, hq, hget⟩ := hs.patchOf hf hcov hentry hstorage (hpatched hentry)
    exact ⟨q, hq, hvalue hentry hget⟩
  have hbatch := EthereumState.transition_accounts hf.stateTrie hne post.accounts.nodupKeys hwhole hu
  have hkeys : ∀ op ∈ EthereumState.accountOps leaf post.accounts.entries,
      op.key ∈ hashedAddresses keccak parentProofs.entries ∧ op.key ∈ hashedAddresses keccak parentProofs.entries := by
    intro op hop
    obtain ⟨entry, hentry, rfl⟩ := List.mem_map.mp hop
    obtain ⟨address, haddress, heq⟩ := hcov.accounts entry.1 (AList.mem_keys.mpr (List.mem_map_of_mem hentry))
    have hmem : entry.1.bytes ∈ hashedAddresses keccak parentProofs.entries :=
      List.mem_map.mpr ⟨address, haddress, congrArg B256.bytes heq⟩
    rw [opOf_key]
    exact ⟨hmem, hmem⟩
  obtain ⟨replies, trie, hrun, hpr⟩ := hs.state.follows hbatch hkeys _ (.refl _)
  obtain ⟨s', hs', rfl⟩ := (EthereumState.foldlM_updateAccount_iff hne post.accounts.nodupKeys hpart).mpr ⟨replies, hrun⟩
  exact ⟨s', hs', hpr, hpr.hash_eq⟩

end Stands

section Honest
variable {keccak : Bytes → B256} {codec : AccountCodec} {f f' s : EthereumState} {after : B256 → MptNode}
  {keys modified : Address → List B256} {parentProofs : IteratedMap Address AccountProof}
  {proofs : HashMap Address AccountProof} {post : HashedPostState}

/-- `witness_db` accepts a state that stands in for a consistent one. -/
theorem StandsIn.accepted (hs : StandsIn keccak f f' after keys modified parentProofs s)
    (hf : f.Consistent keccak codec) : s.Accepted keccak codec (f.stateRoot keccak) := by
  refine ⟨hs.prunes.stateRoot_eq.symm, ?_⟩
  intro h hmem
  obtain ⟨trie, hl⟩ := EthereumState.mem_keys_iff.mp hmem
  obtain ⟨entry, hentry, rfl⟩ := hs.known h (Finmap.mem_of_lookup_eq_some hl)
  have hget := hs.get_account hentry
  rw [EthereumState.storageRootAt, MptNode.getRlp, hget, ← MptNode.getRlp, ← EthereumState.storageRootAt,
    hf, EthereumState.storageTrie_of_lookup hl, (hs.prunes.storageTries _ trie hl).hash_eq]

theorem StandsIn.get_slot (hs : StandsIn keccak f f' after keys modified parentProofs s)
    {entry : Σ _ : Address, AccountProof} (hentry : entry ∈ parentProofs.entries) {key : B256} (hkey : key ∈ keys entry.1) :
    (s.storageTrie (keccak entry.1.bytes)).get (keccak key.bytes).bytes =
      (f.storageTrie (keccak entry.1.bytes)).get (keccak key.bytes).bytes := by
  obtain ⟨trie, hl, hserves⟩ := hs.storage entry hentry
  rw [EthereumState.storageTrie_of_lookup hl]
  exact hserves.answers _ (List.mem_map_of_mem hkey)

/-- From the proofs of an honest provider before and after a transition the host builds a state that
`witness_db` accepts under the state root before, that answers for every account and slot there is
a proof of as the whole state, and that the update takes to the state root after. -/
theorem honest_witness (hh : HonestProofs keccak f f' after keys modified parentProofs proofs)
    (hp : ProvableStates keccak f f' after keys modified parentProofs) (hf : f.Tries (FullTrieOver 64))
    (hcons : f.Consistent keccak codec) (hcodec : ∀ account, codec.encode account ≠ [])
    (hcov : Covered keccak post keys modified parentProofs) (hu : f.update keccak codec post = some f')
    (hafter : ∀ h account, post.accounts.lookup h = some (some account) → after h = f'.storageTrie h) :
    ∃ s enough, (∀ fuel, enough ≤ fuel →
        (transitionProofsToTries keccak fuel (f.stateRoot keccak) parentProofs proofs).Returns s) ∧
      s.Prunes keccak f ∧ s.Accepted keccak codec (f.stateRoot keccak) ∧
      (∀ entry ∈ parentProofs.entries,
        s.stateTrie.get (keccak entry.1.bytes).bytes = f.stateTrie.get (keccak entry.1.bytes).bytes ∧
        ∀ key ∈ keys entry.1, (s.storageTrie (keccak entry.1.bytes)).get (keccak key.bytes).bytes =
          (f.storageTrie (keccak entry.1.bytes)).get (keccak key.bytes).bytes) ∧
      ∃ s', s.update keccak codec post = some s' ∧ s'.stateRoot keccak = f'.stateRoot keccak := by
  obtain ⟨s, enough, hreturns, hs⟩ := transition_standsIn hh hp
  obtain ⟨s', hs', -, hroot⟩ := hs.update hf hcodec hcov hu hafter
  exact ⟨s, enough, hreturns, hs.prunes, hs.accepted hcons,
    fun entry hentry => ⟨hs.get_account hentry, fun key hkey => hs.get_slot hentry hkey⟩, s', hs', hroot⟩

end Honest

section Sample

/-- The state of one account after its nonce has gone up. -/
def laterLeaf : MptNode :=
  .leaf (toEncodedPath zeroAddressHash.nibs true) (rlpCodec.encode ⟨2, 1, EMPTY_ROOT, KECCAK_EMPTY⟩)

def laterDigest : B256 :=
  ⟨[0xe2, 0x5a, 0x8f, 0x77, 0x0e, 0xf0, 0x64, 0xa1, 0x16, 0xa1, 0xd7, 0x0d, 0x93, 0x7a, 0x97, 0x6b,
    0x51, 0xb8, 0xc6, 0x6d, 0x0e, 0x0f, 0x58, 0xf9, 0xb7, 0x46, 0x98, 0x97, 0x60, 0x6b, 0xf0, 0x9b], rfl⟩

def laterEncoding : Bytes :=
  [0xf8, 0x6a, 0xa1, 0x20] ++ zeroAddressHash.bytes ++ [0xb8, 0x46, 0xf8, 0x44, 2, 1, 0xa0] ++ EMPTY_ROOT.bytes ++
    [0xa0] ++ KECCAK_EMPTY.bytes

def laterKeccak : Bytes → B256 := tableKeccak [([], KECCAK_EMPTY), (Address.ZERO.bytes, zeroAddressHash),
  (shownEncoding, shownDigest), (laterEncoding, laterDigest)]

def earlierState : EthereumState := ⟨shownLeaf, ∅⟩

def laterState : EthereumState := ⟨laterLeaf, (∅ : HashMap B256 MptNode).insert zeroAddressHash default⟩

/-- What takes the one to the other. -/
def laterDiff : HashedPostState := ⟨AList.singleton zeroAddressHash (some ⟨2, 1, none⟩), ∅⟩

theorem update_laterState : earlierState.update laterKeccak rlpCodec laterDiff = some laterState := rfl

theorem encode_earlierLeaf : shownLeaf.encode laterKeccak = shownEncoding := by
  rw [shownLeaf, encode_leaf]
  rfl

theorem encode_laterLeaf : laterLeaf.encode laterKeccak = laterEncoding := by
  rw [laterLeaf, encode_leaf]
  rfl

theorem encode_ne_nil (account : TrieAccount) : rlpCodec.encode account ≠ [] := by
  intro hnil
  have hpos : 0 < (rlpCodec.encode account).length := by
    rw [show rlpCodec.encode account = encodeList (account.fields.map encodeString) from rfl, encodeList_length]
    exact Nat.add_pos_right _ (lengthOfLength_pos _)
  exact absurd hpos (by rw [hnil]; exact Nat.lt_irrefl 0)

/-- The digest of the slot 1. -/
def oneSlotHash : B256 :=
  ⟨[0xb1, 0x0e, 0x2d, 0x52, 0x76, 0x12, 0x07, 0x3b, 0x26, 0xee, 0xcd, 0xfd, 0x71, 0x7e, 0x6a, 0x32,
    0x0c, 0xf4, 0x4b, 0x4a, 0xfa, 0xc2, 0xb0, 0x73, 0x2d, 0x9f, 0xcb, 0xe2, 0xb7, 0xfa, 0x0c, 0xf6], rfl⟩

/-- A storage with the values 1 and 2 in the slots 0 and 1. -/
def slotsTrie : MptNode :=
  splitBranch [] 2 (.leaf (toEncodedPath zeroSlotHash.nibs.tail true) [1])
    11 (.leaf (toEncodedPath oneSlotHash.nibs.tail true) [2])

/-- The leaf that is left when the slot 0 is cleared, with its path cut short. -/
def clearedTrie (i : Nat) : MptNode := .leaf (toEncodedPath (oneSlotHash.nibs.drop i) true) [2]

/-- The digests of the encodings of the two storages and of what the proofs of the slot end in. -/
def slotsDigests : List B256 :=
  [⟨[0x4f, 0xc5, 0xf1, 0x3a, 0xb2, 0xf9, 0xba, 0x0c, 0x2d, 0xa8, 0x8b, 0x01, 0x51, 0xab, 0x0e, 0x7c,
      0xf4, 0xd8, 0x5d, 0x08, 0xcc, 0xa4, 0x5c, 0xcd, 0x92, 0x3c, 0x6a, 0xb7, 0x63, 0x23, 0xeb, 0x28], rfl⟩,
    ⟨[0x41, 0xd5, 0xfe, 0x9f, 0x59, 0x15, 0xaf, 0x65, 0xd9, 0xf3, 0xd9, 0x98, 0x1c, 0xe2, 0x22, 0x93,
      0x11, 0x32, 0x9a, 0x17, 0x79, 0x63, 0xf6, 0xfe, 0x7d, 0x44, 0x8b, 0x10, 0x0c, 0xb0, 0x85, 0xce], rfl⟩,
    ⟨[0x63, 0x02, 0xd6, 0xaa, 0x5c, 0xf8, 0xbe, 0xfc, 0x2c, 0x23, 0x25, 0x41, 0x72, 0x19, 0x75, 0x34,
      0xa8, 0x63, 0x9f, 0xc4, 0x00, 0xeb, 0x7a, 0x11, 0xfe, 0xdb, 0xb4, 0x4c, 0x38, 0x8e, 0x29, 0x67], rfl⟩,
    ⟨[0x23, 0x6e, 0x8f, 0x61, 0xec, 0xde, 0x6a, 0xbf, 0xeb, 0xc6, 0xc5, 0x29, 0x44, 0x1f, 0x78, 0x2f,
      0x62, 0x46, 0x9d, 0x8a, 0x2c, 0xc4, 0x7b, 0x7a, 0xac, 0xe2, 0xc1, 0x36, 0xbd, 0x3b, 0x1f, 0xf0], rfl⟩,
    ⟨[0xfa, 0xdb, 0x50, 0xfb, 0xc0, 0x2b, 0x1f, 0x23, 0x38, 0x2a, 0x8f, 0x33, 0xff, 0x8b, 0x04, 0x45,
      0xb1, 0xe8, 0x34, 0x87, 0x89, 0x52, 0x39, 0x79, 0x18, 0x44, 0xc9, 0x6a, 0x0c, 0x7f, 0x48, 0x11], rfl⟩,
    ⟨[0x33, 0xe4, 0xd2, 0x21, 0x80, 0x00, 0x9f, 0x05, 0x3b, 0x28, 0x84, 0xb5, 0x83, 0x30, 0x72, 0x58,
      0x5d, 0xc1, 0x63, 0xdf, 0x08, 0xd9, 0x8e, 0x2b, 0x8a, 0x80, 0x88, 0x91, 0xc3, 0xa7, 0x51, 0x32], rfl⟩,
    ⟨[0x8b, 0x05, 0xf9, 0x51, 0x6b, 0x97, 0x04, 0xef, 0xd4, 0x1c, 0x5a, 0xb9, 0x8d, 0x9c, 0xbe, 0xb2,
      0x1b, 0x3b, 0x02, 0xb3, 0x29, 0xd6, 0x32, 0x55, 0xdc, 0x19, 0xc2, 0xe4, 0x66, 0x8d, 0x0a, 0x7d], rfl⟩,
    ⟨[0x59, 0x85, 0xf8, 0x64, 0x7b, 0x3b, 0xaa, 0xb5, 0x2f, 0x70, 0x99, 0x5b, 0x25, 0x82, 0x33, 0x9d,
      0xdf, 0x3c, 0xb5, 0xfb, 0xce, 0xdb, 0xa2, 0x73, 0x1a, 0x96, 0xce, 0xf1, 0x53, 0x1a, 0x83, 0xed], rfl⟩,
    ⟨[0x6f, 0x18, 0xa1, 0x80, 0xe5, 0xbd, 0x79, 0x57, 0x6f, 0x5a, 0x92, 0x0b, 0xa3, 0x9f, 0x60, 0x58,
      0x39, 0x9c, 0xbe, 0xed, 0x83, 0x65, 0xae, 0xbe, 0xc7, 0x12, 0xd5, 0x24, 0x57, 0x25, 0x51, 0x00], rfl⟩,
    ⟨[0x60, 0x2e, 0xbf, 0x19, 0x19, 0x9f, 0x73, 0xf4, 0xb6, 0x22, 0x7e, 0x52, 0xe3, 0x60, 0xf8, 0xf1,
      0xe7, 0x9e, 0xc9, 0x93, 0xda, 0x01, 0xc4, 0x51, 0xe6, 0x78, 0x5d, 0xf3, 0xca, 0x27, 0xde, 0xb0], rfl⟩,
    ⟨[0xbf, 0x86, 0x95, 0x59, 0x7d, 0x0d, 0xc7, 0x83, 0xd3, 0xca, 0xa4, 0xe0, 0x65, 0x64, 0x57, 0x13,
      0x61, 0x00, 0x82, 0xfb, 0x57, 0xa2, 0xfe, 0xb9, 0xff, 0x7d, 0xf5, 0x58, 0xb6, 0xe8, 0xad, 0x73], rfl⟩]

def slotsRoot : B256 := slotsDigests.getD 1 EMPTY_ROOT

def clearedRoot : B256 := slotsDigests.getD 2 EMPTY_ROOT

/-- The encodings themselves: of the leaf that is cleared, of the root and of the other leaf, with all
paths that are long enough. -/
def slotsEncodings : List Bytes :=
  [(MptNode.leaf (toEncodedPath zeroSlotHash.nibs.tail true) [1]).encode fun _ => EMPTY_ROOT,
    [0xf8, 0x51, 0x80, 0x80, 0xa0] ++ (slotsDigests.headD EMPTY_ROOT).bytes ++ List.replicate 8 0x80 ++ [0xa0] ++
      (slotsDigests.getD 3 EMPTY_ROOT).bytes ++ List.replicate 5 0x80] ++
  (List.range 9).map fun i => (clearedTrie i).encode fun _ => EMPTY_ROOT

/-- A state of one account. -/
def accountLeaf (nonce : UInt64) (storageRoot : B256) : MptNode :=
  .leaf (toEncodedPath zeroAddressHash.nibs true) (rlpCodec.encode ⟨nonce, 1, storageRoot, KECCAK_EMPTY⟩)

def slotsStateRoot : B256 :=
  ⟨[0xf1, 0x54, 0xb6, 0xb0, 0x11, 0xcb, 0xbb, 0xed, 0xb0, 0xc9, 0x14, 0xb5, 0xac, 0xa1, 0xf4, 0x41,
    0x6d, 0x5f, 0x06, 0x71, 0x78, 0x8b, 0x45, 0x44, 0xa5, 0x7b, 0x31, 0x78, 0x54, 0xf6, 0xfa, 0x6b], rfl⟩

def clearedStateRoot : B256 :=
  ⟨[0x5d, 0x3c, 0xf1, 0x72, 0x0a, 0xd3, 0xb3, 0xb3, 0x17, 0x92, 0x24, 0x93, 0xae, 0x1c, 0x83, 0x18,
    0xeb, 0x9e, 0xf1, 0x72, 0x13, 0xa2, 0x86, 0xe2, 0x3a, 0xef, 0x7c, 0x48, 0x09, 0xe4, 0x5b, 0xd3], rfl⟩

def slotsKeccak : Bytes → B256 := tableKeccak ([([], KECCAK_EMPTY), (Address.ZERO.bytes, zeroAddressHash),
  (B256.ZERO.bytes, zeroSlotHash), (List.replicate 31 0 ++ [1], oneSlotHash),
  ((accountLeaf 1 slotsRoot).encode fun _ => EMPTY_ROOT, slotsStateRoot),
  ((accountLeaf 2 clearedRoot).encode fun _ => EMPTY_ROOT, clearedStateRoot)] ++ slotsEncodings.zip slotsDigests)

/-- The state of an account with two slots, and the one after the first of them is cleared. -/
def slotsState : EthereumState :=
  ⟨accountLeaf 1 slotsRoot, (∅ : HashMap B256 MptNode).insert zeroAddressHash slotsTrie⟩

def clearedState : EthereumState :=
  ⟨accountLeaf 2 clearedRoot, (∅ : HashMap B256 MptNode).insert zeroAddressHash (clearedTrie 0)⟩

/-- What takes the one to the other. -/
def clearedDiff : HashedPostState :=
  ⟨AList.singleton zeroAddressHash (some ⟨2, 1, none⟩),
    (∅ : HashMap B256 HashedStorage).insert zeroAddressHash ⟨false, AList.singleton zeroSlotHash 0⟩⟩

theorem hash_slotsTrie : slotsTrie.hash slotsKeccak = slotsRoot := by
  rfl

theorem hash_clearedTrie : (clearedTrie 0).hash slotsKeccak = clearedRoot := by
  rfl

theorem stateRoot_slotsState : slotsState.stateRoot slotsKeccak = slotsStateRoot := by
  rfl

theorem stateRoot_clearedState : clearedState.stateRoot slotsKeccak = clearedStateRoot := by
  rfl

theorem update_slotsState : slotsState.update slotsKeccak rlpCodec clearedDiff = some clearedState := by
  rfl

theorem fullTrieOver_slotsTrie : FullTrieOver 64 slotsTrie :=
  fullTrieOver_pair (by decide) rfl rfl _ _

theorem untwinned_slotsTrie : Untwinned slotsKeccak slotsTrie := untwinned_pair (by decide +kernel)

theorem stored_slotsTrie : (transitionNodes slotsKeccak slotsTrie (clearedTrie 0) [zeroSlotHash.bytes]
      [.delete zeroSlotHash.bytes]).toOption.all (fun nodes => nodes.all fun n =>
        decide ((n.encode slotsKeccak).length < 32 ∨ n.encode slotsKeccak ∈ slotsEncodings)) = true := by
  decide +kernel

theorem encodings_slotsTrie {e : Bytes} (h : e ∈ encodings slotsKeccak slotsTrie) : e ∈ slotsEncodings := by
  rcases encodings_pair h with rfl | rfl | rfl
  · decide +kernel
  · decide +kernel
  · decide +kernel

theorem encodings_clearedTrie {e : Bytes} (h : e ∈ encodings slotsKeccak (clearedTrie 0)) : e ∈ slotsEncodings := by
  rw [clearedTrie, encodings_leaf, Set.mem_singleton_iff] at h
  rw [h]
  decide +kernel

theorem slotsKeccak_injective : ∀ x ∈ slotsEncodings, ∀ y ∈ slotsEncodings, slotsKeccak x = slotsKeccak y → x = y := by
  decide +kernel

theorem provable_slotsTrie : Provable slotsKeccak slotsTrie (clearedTrie 0) [zeroSlotHash.bytes] [zeroSlotHash.bytes] where
  full := fullTrieOver_slotsTrie
  fullAfter := (fullTrieOver_leaf _ _).full
  addressable e he := (by decide +kernel : ∀ e ∈ slotsEncodings, e.length < usizeLimit) e (encodings_slotsTrie he)
  addressableAfter e he := (by decide +kernel : ∀ e ∈ slotsEncodings, e.length < usizeLimit) e (encodings_clearedTrie he)
  untwinned := untwinned_slotsTrie
  untwinnedAfter := untwinned_leaf _ _ _
  injective := by
    have hin : ∀ e ∈ transitionEncodings slotsKeccak slotsTrie (clearedTrie 0) [zeroSlotHash.bytes]
        [.delete zeroSlotHash.bytes], e ∈ slotsEncodings := by
      rintro e ((he | he) | ⟨hlen, nodes, hnodes, m, hm, rfl⟩)
      · exact encodings_slotsTrie he
      · exact encodings_clearedTrie he
      · have hall := stored_slotsTrie
        rw [hnodes] at hall
        have := of_decide_eq_true (List.all_eq_true.mp hall m hm)
        exact this.resolve_left (by omega)
    intro x hx y hy
    exact slotsKeccak_injective x (hin x hx) y (hin y hy)

/-- Between two leaves at one key the proofs show the leaf before, and nothing beside the one after. -/
theorem transitionEncodings_leaves {keccak : Bytes → B256} {h : B256} {v v' : Bytes}
    (haddr : Addressable keccak (.leaf (toEncodedPath h.nibs true) v))
    (haddr' : Addressable keccak (.leaf (toEncodedPath h.nibs true) v')) {e : Bytes}
    (he : e ∈ transitionEncodings keccak (.leaf (toEncodedPath h.nibs true) v) (.leaf (toEncodedPath h.nibs true) v')
      [h.bytes] [.delete h.bytes]) :
    e = (MptNode.leaf (toEncodedPath h.nibs true) v).encode keccak ∨
      e = (MptNode.leaf (toEncodedPath h.nibs true) v').encode keccak := by
  rcases he with (he | he) | ⟨-, nodes, hnodes, m, hm, rfl⟩
  · rw [encodings_leaf] at he
    exact .inl he
  · rw [encodings_leaf] at he
    exact .inr he
  · rcases (mem_transitionNodes hnodes).mp hm with ⟨key, hkey, ns, hns, hn⟩ | ⟨op, hop, ns, hns, hn⟩
    · rw [(fullTrieOver_leaf h v).full.checkedProof haddr (untwinned_leaf _ _ _) key, Except.ok.injEq] at hns
      have htrunc : ns = [.leaf (toEncodedPath h.nibs true) v] := hns.symm
      rw [htrunc] at hn
      rw [List.mem_singleton.mp hn]
      exact .inl rfl
    · rw [List.mem_singleton.mp hop] at hns
      have hget : (MptNode.leaf (toEncodedPath h.nibs true) v').get h.bytes = .ok (some v') := by
        simp [get_eq_nibs]
      rw [Op.key, (fullTrieOver_leaf h v').full.addOrphanedLeafs_stored haddr' (untwinned_leaf _ _ _) hget,
        Except.ok.injEq] at hns
      rw [← hns] at hn
      cases hn

theorem provable_accountLeaf : Provable slotsKeccak (accountLeaf 1 slotsRoot) (accountLeaf 2 clearedRoot)
    [zeroAddressHash.bytes] [zeroAddressHash.bytes] where
  full := fullTrieOver_leaf _ _
  fullAfter := (fullTrieOver_leaf _ _).full
  addressable := addressable_leaf (n := 108) rfl (by decide)
  addressableAfter := addressable_leaf (n := 108) rfl (by decide)
  untwinned := untwinned_leaf _ _ _
  untwinnedAfter := untwinned_leaf _ _ _
  injective := by
    have hne : slotsStateRoot ≠ clearedStateRoot := by decide
    have hbefore : slotsKeccak ((accountLeaf 1 slotsRoot).encode slotsKeccak) = slotsStateRoot := rfl
    have hafter : slotsKeccak ((accountLeaf 2 clearedRoot).encode slotsKeccak) = clearedStateRoot := rfl
    have hmem {e : Bytes} (he : e ∈ transitionEncodings slotsKeccak (accountLeaf 1 slotsRoot) (accountLeaf 2 clearedRoot)
        [zeroAddressHash.bytes] [.delete zeroAddressHash.bytes]) := transitionEncodings_leaves
          (addressable_leaf (n := 108) rfl (by decide)) (addressable_leaf (n := 108) rfl (by decide)) he
    intro x hx y hy hxy
    rcases hmem hx with rfl | rfl
    · rcases hmem hy with rfl | rfl
      · rfl
      · exact absurd (hbefore.symm.trans (hxy.trans hafter)) hne
    · rcases hmem hy with rfl | rfl
      · exact absurd (hbefore.symm.trans (hxy.symm.trans hafter)) hne
      · rfl

theorem get_accountLeaf (nonce : UInt64) (storageRoot : B256) : (accountLeaf nonce storageRoot).get zeroAddressHash.bytes =
    .ok (some (rlpCodec.encode ⟨nonce, 1, storageRoot, KECCAK_EMPTY⟩)) := by
  simp [accountLeaf, get_eq_nibs]

theorem get_accountLeaf_of_ne {nonce : UInt64} {storageRoot h : B256} (hkey : h ≠ zeroAddressHash) :
    (accountLeaf nonce storageRoot).get h.bytes = .ok none := by
  rw [get_eq_nibs, accountLeaf, getInternal_leaf, if_neg fun h => hkey (B256.nibs_inj.mp h).symm]

theorem storageTrie_insert {stateTrie trie : MptNode} {k : B256} (h : B256) :
    (⟨stateTrie, (∅ : HashMap B256 MptNode).insert k trie⟩ : EthereumState).storageTrie h =
      if h = k then trie else .null := by
  rw [EthereumState.storageTrie]
  split_ifs with hkey
  · rw [hkey, Finmap.lookup_insert]
    rfl
  · rw [Finmap.lookup_insert_of_ne _ hkey, Finmap.lookup_empty]
    rfl

theorem storageTrie_slotsState (h : B256) :
    slotsState.storageTrie h = if h = zeroAddressHash then slotsTrie else .null := storageTrie_insert h

theorem storageTrie_clearedState (h : B256) :
    clearedState.storageTrie h = if h = zeroAddressHash then clearedTrie 0 else .null := storageTrie_insert h

theorem full_slotsState : slotsState.Tries (FullTrieOver 64) := by
  refine ⟨fullTrieOver_leaf _ _, ?_⟩
  intro k trie hk
  by_cases hkey : k = zeroAddressHash
  · rw [hkey, slotsState, Finmap.lookup_insert] at hk
    rw [← Option.some.inj hk]
    exact fullTrieOver_slotsTrie
  · rw [slotsState, Finmap.lookup_insert_of_ne _ hkey] at hk
    cases hk

theorem consistent_slotsState : slotsState.Consistent slotsKeccak rlpCodec := by
  intro h
  rw [storageTrie_slotsState]
  split_ifs with hkey
  · rw [hkey, hash_slotsTrie]
    exact EthereumState.storageRootAt_of_leaf (s := slotsState) (get_accountLeaf _ _)
  · exact EthereumState.storageRootAt_of_absent (get_accountLeaf_of_ne hkey)

/-- The proofs of the account and of the slot 0, before the transition and after it. -/
def slotsProof : AccountProof :=
  ⟨honestProof slotsKeccak (accountLeaf 1 slotsRoot) zeroAddressHash.bytes, slotsRoot,
    honestSlots slotsKeccak slotsTrie [B256.ZERO]⟩

def clearedProof : AccountProof :=
  ⟨honestProof slotsKeccak (accountLeaf 2 clearedRoot) zeroAddressHash.bytes, clearedRoot,
    honestSlots slotsKeccak (clearedTrie 0) [B256.ZERO]⟩

theorem keys_of_mem_iff {a : Address} {proofs : IteratedMap Address AccountProof} (h : ∀ b, b ∈ proofs ↔ b = a) :
    proofs.entries.map Sigma.fst = [a] := by
  have hkeys : ∀ b, b ∈ proofs.keys ↔ b ∈ [a] := fun b => (h b).trans List.mem_singleton.symm
  exact List.perm_singleton.mp ((List.perm_ext_iff_of_nodup proofs.keys_nodup (List.nodup_singleton a)).mpr hkeys)

theorem honestProofs_slotsState : HonestProofs slotsKeccak slotsState clearedState clearedState.storageTrie
    (fun _ => [B256.ZERO]) (fun _ => [B256.ZERO]) (AList.singleton Address.ZERO slotsProof)
    (Finmap.singleton Address.ZERO clearedProof) where
  before entry hentry := by
    rw [List.mem_singleton.mp hentry]
    refine ⟨rfl, rfl, ?_⟩
    exact hash_slotsTrie.symm
  fini entry hentry := by
    rw [List.mem_singleton.mp hentry]
    refine ⟨clearedProof, Finmap.lookup_singleton_eq, rfl, rfl, ?_⟩
    exact hash_clearedTrie.symm

theorem provableStates_slotsState {keys modified : Address → List B256} {proofs : IteratedMap Address AccountProof}
    (h : ∀ a, a ∈ proofs ↔ a = Address.ZERO) (hkeys : keys Address.ZERO = [B256.ZERO])
    (hmodified : modified Address.ZERO = [B256.ZERO]) :
    ProvableStates slotsKeccak slotsState clearedState clearedState.storageTrie keys modified proofs where
  state := by
    have hhashed := congrArg (List.map fun a : Address => (slotsKeccak a.bytes).bytes) (keys_of_mem_iff h)
    rw [List.map_map] at hhashed
    have hkeys : hashedAddresses slotsKeccak proofs.entries = [zeroAddressHash.bytes] := hhashed
    rw [hkeys]
    exact provable_accountLeaf
  storage entry hentry := by
    have haddress : entry.1 = Address.ZERO := (h entry.1).mp (AList.mem_keys.mpr (List.mem_map_of_mem hentry))
    rw [haddress, hkeys, hmodified]
    exact provable_slotsTrie
  soleState hroot := absurd (stateRoot_slotsState.symm.trans hroot) (by decide)
  soleStorage entry hentry := by
    have haddress : entry.1 = Address.ZERO := (h entry.1).mp (AList.mem_keys.mpr (List.mem_map_of_mem hentry))
    rw [haddress]
    exact fun hroot => absurd (hash_slotsTrie.symm.trans hroot) (by decide)
  distinct := by
    have hhashed := congrArg (List.map fun a : Address => slotsKeccak a.bytes) (keys_of_mem_iff h)
    rw [List.map_map] at hhashed
    have hkeys : (proofs.entries.map fun entry => slotsKeccak entry.1.bytes) = [zeroAddressHash] := hhashed
    rw [hkeys]
    exact List.nodup_singleton _
  nonzero := by
    rw [stateRoot_slotsState]
    decide

theorem honest_witness_slotsState : ∃ s enough, (∀ fuel, enough ≤ fuel →
      (transitionProofsToTries slotsKeccak fuel (slotsState.stateRoot slotsKeccak)
        (AList.singleton Address.ZERO slotsProof) (Finmap.singleton Address.ZERO clearedProof)).Returns s) ∧
    s.Prunes slotsKeccak slotsState ∧ s.Accepted slotsKeccak rlpCodec (slotsState.stateRoot slotsKeccak) ∧
    (∀ entry ∈ (AList.singleton Address.ZERO slotsProof : IteratedMap Address AccountProof).entries,
      s.stateTrie.get (slotsKeccak entry.1.bytes).bytes = slotsState.stateTrie.get (slotsKeccak entry.1.bytes).bytes ∧
      ∀ key ∈ [B256.ZERO], (s.storageTrie (slotsKeccak entry.1.bytes)).get (slotsKeccak key.bytes).bytes =
        (slotsState.storageTrie (slotsKeccak entry.1.bytes)).get (slotsKeccak key.bytes).bytes) ∧
    ∃ s', s.update slotsKeccak rlpCodec clearedDiff = some s' ∧
      s'.stateRoot slotsKeccak = clearedState.stateRoot slotsKeccak := by
  have hproofs : ProvableStates slotsKeccak slotsState clearedState clearedState.storageTrie (fun _ => [B256.ZERO])
      (fun _ => [B256.ZERO]) (AList.singleton Address.ZERO slotsProof) :=
    provableStates_slotsState (fun a => List.mem_singleton) rfl rfl
  refine honest_witness honestProofs_slotsState hproofs full_slotsState consistent_slotsState encode_ne_nil ?_
    update_slotsState ?_
  · refine ⟨?_, ?_⟩
    · intro h hmem
      exact ⟨_, List.mem_singleton.mpr rfl, (List.mem_singleton.mp hmem).symm⟩
    · intro entry hentry slot hslot
      rw [List.mem_singleton.mp hentry] at hslot
      obtain rfl : slot = ⟨zeroSlotHash, 0⟩ := List.mem_singleton.mp hslot
      exact ⟨B256.ZERO, List.mem_singleton_self _, List.mem_singleton_self _, rfl⟩
  · intro h account _
    rfl

end Sample

end RethProcessor
