import RethProcessor.Calls
import RethProcessor.TrieMerge
import RethProcessor.StateWitness

/-! The state that the host builds from account proofs. The storage root that a proof
declares is never compared with the leaf of its account: only a proof that shows the leaf
makes the state one that `witness_db` accepts. -/
namespace RethProcessor
open Paths Rlp Calls

/-- What is read of the proof of a slot. -/
structure StorageProof where
  key : B256
  proof : List Bytes

/-- What is read of the proof of an account. -/
structure AccountProof where
  proof : List Bytes
  storageRoot : B256
  storageProofs : List StorageProof

/-- `node_from_digest`. -/
def nodeFromDigest (digest : B256) : MptNode :=
  if digest = EMPTY_ROOT ∨ digest = B256.ZERO then default else .digest digest

/-- What the loop over the accounts has gathered so far. -/
structure Gathered where
  storage : HashMap B256 MptNode
  stateNodes : List MptNode
  stateRootNode : MptNode

section Keccak
variable (keccak : Bytes → B256)

/-- A proof is read: its nodes go to the others, and its first one becomes the root. -/
def readProof (nodes : List MptNode × MptNode) (proof : List Bytes) :
    Except ProofFailure (List MptNode × MptNode) := do
  let proofNodes ← checkedProof keccak proof
  .ok (nodes.1 ++ proofNodes, proofNodes.head?.getD nodes.2)

/-- `add_orphaned_leafs` for each proof of a slot. -/
def addOrphanedSlots (storageProofs : List StorageProof) : Except ProofFailure (List MptNode) := do
  let orphans ← storageProofs.mapM fun storageProof =>
    addOrphanedLeafs keccak (keccak storageProof.key.bytes).bytes storageProof.proof
  .ok orphans.flatten

/-- The storage trie of an account, from the proofs of its slots before and after. -/
def buildStorage (fuel : Nat) (address : Address) (proof finiProofs : AccountProof) : Call ProofFailure MptNode :=
  if proof.storageProofs.isEmpty then pure (nodeFromDigest proof.storageRoot)
  else do
    let (storageNodes, storageRootNode) ←
      proof.storageProofs.foldlM (fun nodes slot => readProof keccak nodes slot.proof) ([], default)
    let orphans ← addOrphanedSlots keccak finiProofs.storageProofs
    let storageTrie ← resolveNodes (storeOf keccak (storageNodes ++ orphans)) fuel storageRootNode
    if storageTrie.hash keccak = proof.storageRoot then pure storageTrie
    else throw (.err (.mismatchedStorageRoot address.bytes (storageTrie.hash keccak) proof.storageRoot))

/-- One turn of the loop over the accounts. -/
def readAccount (fuel : Nat) (fini : Address → Except ProofFailure AccountProof) (acc : Gathered)
    (entry : Σ _ : Address, AccountProof) : Call ProofFailure Gathered := do
  let (stateNodes, stateRootNode) ← readProof keccak (acc.stateNodes, acc.stateRootNode) entry.2.proof
  let finiProofs ← fini entry.1
  let orphans ← addOrphanedLeafs keccak (keccak entry.1.bytes).bytes finiProofs.proof
  let storageTrie ← buildStorage keccak fuel entry.1 entry.2 finiProofs
  pure ⟨acc.storage.insert (keccak entry.1.bytes) storageTrie, stateNodes ++ orphans, stateRootNode⟩

/-- The state from the proofs of its accounts, given what there is of proofs after it. -/
def buildTries (fuel : Nat) (stateRoot : B256) (proofs : IteratedMap Address AccountProof)
    (fini : Address → Except ProofFailure AccountProof) : Call ProofFailure EthereumState :=
  if proofs.entries.isEmpty then pure ⟨nodeFromDigest stateRoot, ∅⟩
  else do
    let acc ← proofs.entries.foldlM (readAccount keccak fuel fini) ⟨∅, [], default⟩
    let stateTrie ← resolveNodes (storeOf keccak acc.stateNodes) fuel acc.stateRootNode
    if stateTrie.hash keccak = stateRoot then pure ⟨stateTrie, acc.storage⟩
    else throw (.err (.mismatchedStateRoot (stateTrie.hash keccak) stateRoot))

/-- `proofs_to_tries`. Without proofs of a later state there is nothing orphaned to add. -/
def proofsToTries (fuel : Nat) (stateRoot : B256) (proofs : IteratedMap Address AccountProof) :
    Call ProofFailure EthereumState :=
  buildTries keccak fuel stateRoot proofs fun _ => .ok ⟨[], EMPTY_ROOT, []⟩

def transitionProofsToTries (fuel : Nat) (stateRoot : B256) (parentProofs : IteratedMap Address AccountProof)
    (proofs : HashMap Address AccountProof) : Call ProofFailure EthereumState :=
  buildTries keccak fuel stateRoot parentProofs fun address =>
    match proofs.lookup address with
    | some finiProofs => .ok finiProofs
    | none => .error .panic

end Keccak

section Read
variable {keccak : Bytes → B256} {fuel : Nat}

/-- An empty root, also where it is written as zero. -/
def B256.emptyFromZero (digest : B256) : B256 := if digest = B256.ZERO then EMPTY_ROOT else digest

/-- The storage root that a proof stands for. -/
def AccountProof.declaredRoot (proof : AccountProof) : B256 :=
  if proof.storageProofs.isEmpty then proof.storageRoot.emptyFromZero else proof.storageRoot

theorem hash_nodeFromDigest (digest : B256) : (nodeFromDigest digest).hash keccak = digest.emptyFromZero := by
  simp only [nodeFromDigest, B256.emptyFromZero]
  by_cases hzero : digest = B256.ZERO
  · simp only [hzero, or_true, ↓reduceIte]
    rfl
  · by_cases hempty : digest = EMPTY_ROOT
    · simp only [hempty, true_or, ↓reduceIte, ite_self]
      rfl
    · simp only [hzero, hempty, or_self, ↓reduceIte]
      rfl

theorem shortenNodePath_wellFlagged {n : MptNode} (hn : WellFlagged n) {nodes : List MptNode}
    (h : shortenNodePath n = .ok nodes) : ∀ m ∈ nodes, WellFlagged m := by
  have hnil (hnodes : (Except.ok [] : Except Failure (List MptNode)) = .ok nodes) : ∀ m ∈ nodes, WellFlagged m := by
    rw [← Except.ok.inj hnodes]
    intro m hm
    cases hm
  cases hn with
  | null => exact hnil h
  | branch => exact hnil h
  | digest => exact hnil h
  | @leaf path value hflag =>
      obtain ⟨ns, hns⟩ := prefixNibs_of_ne_nil (leafFlag_ne_nil hflag)
      simp only [shortenNodePath, MptNode.nibs, hns, Except.ok.injEq] at h
      rw [← h]
      intro m hm
      obtain ⟨i, -, rfl⟩ := List.mem_map.mp hm
      exact .leaf value (leafFlag_toEncodedPath _ true)
  | @extension path child hpath hflag hchild =>
      obtain ⟨ns, hns⟩ := prefixNibs_of_ne_nil hpath
      simp only [shortenNodePath, MptNode.nibs, hns, Except.ok.injEq] at h
      rw [← h]
      intro m hm
      obtain ⟨i, -, rfl⟩ := List.mem_map.mp hm
      exact .extension (toEncodedPath_ne_nil _ false) (leafFlag_toEncodedPath _ false) hchild

theorem addOrphanedLeafs_wellFlagged {hashedKey : Bytes} {proof : List Bytes} {nodes : List MptNode}
    (h : addOrphanedLeafs keccak hashedKey proof = .ok nodes) : ∀ n ∈ nodes, WellFlagged n := by
  have hnil (hnodes : (Except.ok [] : Except ProofFailure (List MptNode)) = .ok nodes) :
      ∀ m ∈ nodes, WellFlagged m := by
    rw [← Except.ok.inj hnodes]
    intro m hm
    cases hm
  rw [addOrphanedLeafs] at h
  split at h
  · exact hnil h
  · split at h
    · cases h
    · next proofNodes hparse =>
        split at h
        · cases h
        · exact hnil h
        · split at h
          · cases h
          · next leaf hleaf =>
              cases hshort : shortenNodePath leaf with
              | error f =>
                  rw [hshort] at h
                  cases h
              | ok shortened =>
                  rw [hshort] at h
                  rw [← Except.ok.inj h]
                  exact shortenNodePath_wellFlagged
                    (parseProof_wellFlagged hparse _ (List.mem_of_getLast? hleaf)) hshort

theorem checkedProof_ok {proof : List Bytes} {nodes : List MptNode} (h : checkedProof keccak proof = .ok nodes) :
    parseProof proof = .ok nodes := by
  rw [checkedProof] at h
  split at h
  · cases h
  · next proofNodes hparse =>
      split at h
      · cases h
      · rw [hparse, Except.ok.inj h]

/-- The storage trie of an account has the storage root that its proof declares. -/
theorem hash_of_buildStorage {address : Address} {proof finiProofs : AccountProof} {trie : MptNode}
    (h : (buildStorage keccak fuel address proof finiProofs).Returns trie) :
    trie.hash keccak = proof.declaredRoot := by
  rw [buildStorage] at h
  rw [AccountProof.declaredRoot]
  split
  · next hnone =>
      rw [if_pos hnone, returns_pure] at h
      rw [← h, hash_nodeFromDigest]
  · next hsome =>
      rw [if_neg hsome] at h
      obtain ⟨storageNodes, -, h⟩ := h.bind
      obtain ⟨orphans, -, h⟩ := h.bind
      obtain ⟨storageTrie, -, h⟩ := h.bind
      split at h
      · next hroot =>
          rw [returns_pure] at h
          rw [← h, hroot]
      · exact absurd h not_returns_throw

/-- What holds of the nodes and the storage tries when some of the accounts are done. -/
structure Gathers (keccak : Bytes → B256) (done : List (Σ _ : Address, AccountProof)) (acc : Gathered) :
    Prop where
  flagged : ∀ n ∈ acc.stateNodes, WellFlagged n
  root : acc.stateRootNode = .null ∨ acc.stateRootNode ∈ acc.stateNodes
  shown : ∀ entry ∈ done, ∃ nodes, parseProof entry.2.proof = .ok nodes ∧ ∀ n ∈ nodes, n ∈ acc.stateNodes
  stored : ∀ entry ∈ done, keccak entry.1.bytes ∈ acc.storage
  declared : ∀ h trie, acc.storage.lookup h = some trie →
    ∃ entry ∈ done, keccak entry.1.bytes = h ∧ trie.hash keccak = entry.2.declaredRoot

theorem gathers_nil : Gathers keccak [] ⟨∅, [], default⟩ where
  flagged n hn := nomatch hn
  root := .inl rfl
  shown entry hentry := nomatch hentry
  stored entry hentry := nomatch hentry
  declared h trie hl := by simp at hl

theorem Gathers.readAccount {fini : Address → Except ProofFailure AccountProof}
    {done : List (Σ _ : Address, AccountProof)} {acc acc' : Gathered} {entry : Σ _ : Address, AccountProof}
    (hg : Gathers keccak done acc) (h : (readAccount keccak fuel fini acc entry).Returns acc') :
    Gathers keccak (done ++ [entry]) acc' := by
  obtain ⟨⟨stateNodes, stateRootNode⟩, hread, h⟩ := h.bind
  obtain ⟨finiProofs, -, h⟩ := h.bind
  obtain ⟨orphans, horphans, h⟩ := h.bind
  obtain ⟨storageTrie, hstorage, h⟩ := h.bind
  rw [returns_pure] at h
  rw [returns_except] at hread horphans
  obtain ⟨proofNodes, hproof, hpair⟩ := bind_ok_inv hread
  obtain ⟨rfl, rfl⟩ := Prod.mk.inj (Except.ok.inj hpair)
  have hparse := checkedProof_ok hproof
  rw [← h]
  refine ⟨?_, ?_, ?_, ?_, ?_⟩
  · intro n hn
    rcases List.mem_append.mp hn with hn | hn
    · rcases List.mem_append.mp hn with hn | hn
      · exact hg.flagged n hn
      · exact parseProof_wellFlagged hparse n hn
    · exact addOrphanedLeafs_wellFlagged horphans n hn
  · cases proofNodes with
    | nil =>
        rcases hg.root with hnull | hin
        · exact .inl hnull
        · exact .inr (List.mem_append_left _ (List.mem_append_left _ hin))
    | cons n rest => exact .inr (List.mem_append_left _ (List.mem_append_right _ List.mem_cons_self))
  · intro e he
    rcases List.mem_append.mp he with he | he
    · obtain ⟨nodes, hnodes, hin⟩ := hg.shown e he
      exact ⟨nodes, hnodes, fun n hn => List.mem_append_left _ (List.mem_append_left _ (hin n hn))⟩
    · rw [List.mem_singleton.mp he]
      exact ⟨proofNodes, hparse, fun n hn => List.mem_append_left _ (List.mem_append_right _ hn)⟩
  · intro e he
    rw [Finmap.mem_insert]
    rcases List.mem_append.mp he with he | he
    · exact .inr (hg.stored e he)
    · exact .inl (by rw [List.mem_singleton.mp he])
  · intro k trie hl
    by_cases hk : k = keccak entry.1.bytes
    · rw [hk, Finmap.lookup_insert, Option.some.injEq] at hl
      exact ⟨entry, List.mem_append_right _ (List.mem_singleton.mpr rfl), hk.symm, hl ▸ hash_of_buildStorage hstorage⟩
    · rw [Finmap.lookup_insert_of_ne _ hk] at hl
      obtain ⟨e, he, hke, hhash⟩ := hg.declared k trie hl
      exact ⟨e, List.mem_append_left _ he, hke, hhash⟩

/-- The proof of an account, put together by itself, is of a trie with the state root, and shows
the account with the storage root that it declares. -/
def AccountProof.Shows (keccak : Bytes → B256) (codec : AccountCodec) (stateRoot : B256) (address : Address)
    (proof : AccountProof) : Prop :=
  ∃ nodes t account, parseProof proof.proof = .ok nodes ∧ (∀ n ∈ nodes, n.trunc keccak = n) ∧
    mptFromProof keccak nodes = .ok t ∧ t.hash keccak = stateRoot ∧
    t.getRlp codec.decode (keccak address.bytes).bytes = .ok account ∧
    account.elim EMPTY_ROOT TrieAccount.storageRoot = proof.declaredRoot

theorem getRlp_of_get {α : Type} {decode : Bytes → Option α} {t p : MptNode} {key : Bytes} {o : Option α}
    (hget : ∀ x, t.get key = .ok x → p.get key = .ok x) (h : t.getRlp decode key = .ok o) :
    p.getRlp decode key = .ok o := by
  cases ht : t.get key with
  | error f =>
      rw [MptNode.getRlp, ht] at h
      cases h
  | ok x => rwa [MptNode.getRlp, hget x ht, ← ht, ← MptNode.getRlp]

section Built
variable {codec : AccountCodec} {stateRoot : B256} {proofs : IteratedMap Address AccountProof}
  {fini : Address → Except ProofFailure AccountProof} {s : EthereumState}

/-- A state that is built: of a root alone, or of what the loop over the accounts has gathered. -/
theorem buildTries_cases (h : (buildTries keccak fuel stateRoot proofs fini).Returns s) :
    (proofs = ∅ ∧ s = ⟨nodeFromDigest stateRoot, ∅⟩) ∨
    (proofs ≠ ∅ ∧ s.stateRoot keccak = stateRoot ∧ ∃ stateNodes stateRootNode,
      Gathers keccak proofs.entries ⟨s.storageTries, stateNodes, stateRootNode⟩ ∧
      resolveNodes (storeOf keccak stateNodes) fuel stateRootNode = some s.stateTrie) := by
  rw [buildTries] at h
  split at h
  · next hnil =>
      rw [returns_pure] at h
      exact .inl ⟨AList.ext (List.isEmpty_iff.mp hnil), h.symm⟩
  · next hcons =>
      obtain ⟨acc, hfold, h⟩ := h.bind
      obtain ⟨stateTrie, hres, h⟩ := h.bind
      rw [returns_option] at hres
      split at h
      · next hroot =>
          rw [returns_pure] at h
          rw [← h]
          refine .inr ⟨?_, hroot, acc.stateNodes, acc.stateRootNode, ?_, hres⟩
          · rintro rfl
            exact hcons rfl
          · exact Call.Returns.foldlM (fun done acc entry acc' hg hr => hg.readAccount hr) gathers_nil hfold
      · exact absurd h not_returns_throw

/-- The root of a state that is built is the one asked for, but for a zero root that stands for
an empty state. -/
theorem stateRoot_of_buildTries (h : (buildTries keccak fuel stateRoot proofs fini).Returns s) :
    s.stateRoot keccak = stateRoot ↔ ¬ (proofs = ∅ ∧ stateRoot = B256.ZERO) := by
  rcases buildTries_cases h with ⟨hnil, rfl⟩ | ⟨hcons, hroot, -⟩
  · rw [EthereumState.stateRoot, hash_nodeFromDigest, B256.emptyFromZero]
    by_cases hzero : stateRoot = B256.ZERO
    · simp only [hzero, ↓reduceIte, hnil, and_self, not_true_eq_false, iff_false]
      decide
    · simp only [hzero, ↓reduceIte, and_false, not_false_eq_true]
  · exact iff_of_true hroot fun h => hcons h.1

theorem mem_keys_of_buildTries (h : (buildTries keccak fuel stateRoot proofs fini).Returns s)
    {hashed : B256} : hashed ∈ s.storageTries.keys ↔ ∃ address ∈ proofs, keccak address.bytes = hashed := by
  rw [Finmap.mem_keys]
  rcases buildTries_cases h with ⟨rfl, rfl⟩ | ⟨-, -, stateNodes, root, hg, -⟩
  · apply iff_of_false Finmap.notMem_empty
    rintro ⟨address, hmem, -⟩
    exact AList.notMem_empty address hmem
  · constructor
    · intro hmem
      obtain ⟨trie, hl⟩ := Finmap.mem_iff.mp hmem
      obtain ⟨entry, hentry, hkey, -⟩ := hg.declared hashed trie hl
      exact ⟨entry.1, AList.mem_keys.mpr (List.mem_map_of_mem hentry), hkey⟩
    · rintro ⟨address, hmem, rfl⟩
      obtain ⟨entry, hentry, rfl⟩ := List.mem_map.mp (AList.mem_keys.mp hmem)
      exact hg.stored entry hentry

theorem declared_of_buildTries (h : (buildTries keccak fuel stateRoot proofs fini).Returns s)
    (hinj : Set.InjOn (fun address : Address => keccak address.bytes) {address | address ∈ proofs})
    {address : Address} {proof : AccountProof} (hl : proofs.lookup address = some proof) :
    (s.storageTrie (keccak address.bytes)).hash keccak = proof.declaredRoot := by
  have hentry : (⟨address, proof⟩ : Σ _ : Address, AccountProof) ∈ proofs.entries := AList.mem_lookup_iff.mp hl
  have haddress {entry : Σ _ : Address, AccountProof} (he : entry ∈ proofs.entries) : entry.1 ∈ proofs :=
    AList.mem_keys.mpr (List.mem_map_of_mem he)
  rcases buildTries_cases h with ⟨rfl, -⟩ | ⟨-, -, stateNodes, root, hg, -⟩
  · cases hentry
  · obtain ⟨trie, htrie⟩ := Finmap.mem_iff.mp (hg.stored _ hentry)
    obtain ⟨other, hother, hkey, hhash⟩ := hg.declared _ trie htrie
    obtain ⟨a, p⟩ := other
    obtain rfl : a = address := hinj (haddress hother) (haddress hentry) hkey
    have hp : proofs.lookup a = some p := AList.mem_lookup_iff.mpr hother
    rw [EthereumState.storageTrie_of_lookup htrie, hhash, Option.some.inj (hp.symm.trans hl)]

/-- What the proof of an account shows, the state shows. -/
theorem shows_of_buildTries (h : (buildTries keccak fuel stateRoot proofs fini).Returns s)
    (hempty : keccak [EMPTY_STRING_CODE] = EMPTY_ROOT) (hlen : Addressable keccak s.stateTrie)
    {address : Address} {proof : AccountProof} (hl : proofs.lookup address = some proof)
    (hfree : ∀ nodes t, parseProof proof.proof = .ok nodes → mptFromProof keccak nodes = .ok t →
      CollisionFree keccak s.stateTrie t)
    (hshows : proof.Shows keccak codec stateRoot address) :
    s.storageRootAt codec (keccak address.bytes) = some proof.declaredRoot := by
  have hentry : (⟨address, proof⟩ : Σ _ : Address, AccountProof) ∈ proofs.entries := AList.mem_lookup_iff.mp hl
  obtain ⟨nodes, t, account, hparse, htrunc, ht, hhash, hget, hroot⟩ := hshows
  rcases buildTries_cases h with ⟨rfl, -⟩ | ⟨-, hstate, stateNodes, root, hg, hres⟩
  · cases hentry
  · obtain ⟨nodes', hparse', hin⟩ := hg.shown _ hentry
    obtain rfl : nodes' = nodes := Except.ok.inj (hparse'.symm.trans hparse)
    have hgot := getRlp_of_get (fun x hx => mptFromProof_merged
      (fun n hn => ⟨parseProof_wellFlagged hparse n hn, htrunc n hn⟩) hin hg.flagged hg.root hres ht hlen
      (hfree nodes' t hparse ht) hempty (hstate.trans hhash.symm) hx) hget
    simp only [EthereumState.storageRootAt, hgot, hroot]

end Built

/-- What `witness_db` finds in a state that is built from transition proofs: the state root asked
for, and for each account a storage trie with the root that its proof declares. It accepts the
state if the leaves agree, as they do with proofs that show their accounts. -/
theorem transition_accepted {codec : AccountCodec} {stateRoot : B256}
    {parentProofs : IteratedMap Address AccountProof} {proofs : HashMap Address AccountProof} {s : EthereumState}
    (hs : (transitionProofsToTries keccak fuel stateRoot parentProofs proofs).Returns s)
    (hinj : Set.InjOn (fun address : Address => keccak address.bytes) {address | address ∈ parentProofs}) :
    (s.stateRoot keccak = stateRoot ↔ ¬ (parentProofs = ∅ ∧ stateRoot = B256.ZERO)) ∧
    (∀ h, h ∈ s.storageTries.keys ↔ ∃ address ∈ parentProofs, keccak address.bytes = h) ∧
    (∀ address proof, parentProofs.lookup address = some proof →
      (s.storageTrie (keccak address.bytes)).hash keccak = proof.declaredRoot) ∧
    (s.Accepted keccak codec stateRoot ↔ ¬ (parentProofs = ∅ ∧ stateRoot = B256.ZERO) ∧
      ∀ address proof, parentProofs.lookup address = some proof →
        s.storageRootAt codec (keccak address.bytes) = some proof.declaredRoot) ∧
    (¬ (parentProofs = ∅ ∧ stateRoot = B256.ZERO) → keccak [EMPTY_STRING_CODE] = EMPTY_ROOT →
      Addressable keccak s.stateTrie →
      (∀ address proof nodes t, parentProofs.lookup address = some proof → parseProof proof.proof = .ok nodes →
        mptFromProof keccak nodes = .ok t → CollisionFree keccak s.stateTrie t) →
      (∀ address proof, parentProofs.lookup address = some proof → proof.Shows keccak codec stateRoot address) →
      s.Accepted keccak codec stateRoot) := by
  have haccepted : s.Accepted keccak codec stateRoot ↔ ¬ (parentProofs = ∅ ∧ stateRoot = B256.ZERO) ∧
      ∀ address proof, parentProofs.lookup address = some proof →
        s.storageRootAt codec (keccak address.bytes) = some proof.declaredRoot := by
    constructor
    · intro h
      refine ⟨(stateRoot_of_buildTries hs).mp h.stateRoot.symm, ?_⟩
      intro address proof hl
      have hmem : address ∈ parentProofs := AList.lookup_isSome.mp (by rw [hl, Option.isSome_some])
      rw [h.storageRoots _ ((mem_keys_of_buildTries hs).mpr ⟨address, hmem, rfl⟩), declared_of_buildTries hs hinj hl]
    · intro h
      refine ⟨((stateRoot_of_buildTries hs).mpr h.1).symm, ?_⟩
      intro hashed hmem
      obtain ⟨address, hin, rfl⟩ := (mem_keys_of_buildTries hs).mp hmem
      obtain ⟨proof, hl⟩ := Option.isSome_iff_exists.mp (AList.lookup_isSome.mpr hin)
      rw [h.2 address proof hl, declared_of_buildTries hs hinj hl]
  refine ⟨stateRoot_of_buildTries hs, fun h => mem_keys_of_buildTries hs,
    fun address proof hl => declared_of_buildTries hs hinj hl, haccepted, ?_⟩
  intro hroot hempty hlen hfree hshows
  rw [haccepted]
  refine ⟨hroot, ?_⟩
  intro address proof hl
  exact shows_of_buildTries hs hempty hlen hl (fun nodes t => hfree address proof nodes t hl) (hshows address proof hl)

end Read

section Sample

/-- The digest of the zero address. -/
def zeroAddressHash : B256 :=
  ⟨[0x53, 0x80, 0xc7, 0xb7, 0xae, 0x81, 0xa5, 0x8e, 0xb9, 0x8d, 0x9c, 0x78, 0xde, 0x4a, 0x1f, 0xd7,
    0xfd, 0x95, 0x35, 0xfc, 0x95, 0x3e, 0xd2, 0xbe, 0x60, 0x2d, 0xaa, 0xa4, 0x17, 0x67, 0x31, 0x2a], rfl⟩

/-- A state of one account without storage. -/
def shownLeaf : MptNode :=
  .leaf (toEncodedPath zeroAddressHash.nibs true) (rlpCodec.encode ⟨1, 1, EMPTY_ROOT, KECCAK_EMPTY⟩)

def shownDigest : B256 :=
  ⟨[0xa2, 0xa9, 0xaa, 0xc9, 0xbc, 0x59, 0x45, 0xce, 0xdf, 0x7f, 0xba, 0x34, 0xe9, 0xa2, 0x43, 0xdf,
    0x03, 0xeb, 0x46, 0x0d, 0x0d, 0x05, 0x8f, 0xcd, 0x0e, 0x77, 0x2a, 0xcd, 0x24, 0x5c, 0x49, 0xd6], rfl⟩

/-- Its encoding. -/
def shownEncoding : Bytes :=
  [0xf8, 0x6a, 0xa1, 0x20] ++ zeroAddressHash.bytes ++ [0xb8, 0x46, 0xf8, 0x44, 1, 1, 0xa0] ++ EMPTY_ROOT.bytes ++
    [0xa0] ++ KECCAK_EMPTY.bytes

def shownKeccak : Bytes → B256 :=
  tableKeccak [(Address.ZERO.bytes, zeroAddressHash), (shownEncoding, shownDigest)]

theorem encode_shownLeaf : shownLeaf.encode shownKeccak = shownEncoding := by
  rw [shownLeaf, encode_leaf]
  rfl

theorem hash_shownLeaf : shownLeaf.hash shownKeccak = shownDigest := by
  rw [hash_of_isListed rfl, encode_shownLeaf]
  rfl

/-- The proof of the account in that state. -/
def shownProof : AccountProof := ⟨[shownEncoding], EMPTY_ROOT, []⟩

theorem encodings_shownLeaf : encodings shownKeccak shownLeaf = {shownEncoding} := by
  rw [← encode_shownLeaf]
  exact encodings_leaf _ _

theorem fullTrieOver_shownLeaf : FullTrieOver 64 shownLeaf := fullTrieOver_leaf _ _

theorem addressable_shownLeaf : Addressable shownKeccak shownLeaf :=
  addressable_leaf (n := 108) rfl (by decide)

theorem untwinned_shownLeaf : Untwinned shownKeccak shownLeaf := by
  intro children i j c c' d hsub
  cases hsub

theorem honestProof_shownLeaf : honestProof shownKeccak shownLeaf zeroAddressHash.bytes = [shownEncoding] := by
  rw [← encode_shownLeaf]
  rfl

theorem checkedProof_shownLeaf : checkedProof shownKeccak shownProof.proof = .ok [shownLeaf] := by
  rw [shownProof, ← honestProof_shownLeaf]
  exact fullTrieOver_shownLeaf.full.checkedProof addressable_shownLeaf untwinned_shownLeaf zeroAddressHash.bytes

theorem get_shownLeaf : shownLeaf.get zeroAddressHash.bytes =
    .ok (some (rlpCodec.encode ⟨1, 1, EMPTY_ROOT, KECCAK_EMPTY⟩)) := by
  simp [shownLeaf, get_eq_nibs]

theorem collisionFree_shownLeaf : CollisionFree shownKeccak shownLeaf shownLeaf := by
  have hinj : ∀ x ∈ [[EMPTY_STRING_CODE], shownEncoding], ∀ y ∈ [[EMPTY_STRING_CODE], shownEncoding],
      shownKeccak x = shownKeccak y → x = y := by decide +kernel
  have hin : ∀ e ∈ encodings shownKeccak shownLeaf, e ∈ [[EMPTY_STRING_CODE], shownEncoding] := by
    intro e he
    rw [encodings_shownLeaf] at he
    exact List.mem_cons_of_mem _ (List.mem_singleton.mpr he)
  exact collisionFree_of_mem hinj List.mem_cons_self hin hin

/-- The same proof after the transition, without slots. -/
def shownAfter : HashMap Address AccountProof := Finmap.singleton Address.ZERO shownProof

/-- Its storage tries: an empty one for the account. -/
def shownStorage : HashMap B256 MptNode := (∅ : HashMap B256 MptNode).insert (shownKeccak Address.ZERO.bytes) default

theorem returns_shownLeaf :
    (transitionProofsToTries shownKeccak 1 shownDigest (AList.singleton Address.ZERO shownProof) shownAfter).Returns
      ⟨shownLeaf, shownStorage⟩ := by
  have horphans : addOrphanedLeafs shownKeccak (shownKeccak Address.ZERO.bytes).bytes shownProof.proof = .ok [] := by
    rw [shownProof, ← honestProof_shownLeaf]
    exact fullTrieOver_shownLeaf.full.addOrphanedLeafs_stored addressable_shownLeaf untwinned_shownLeaf get_shownLeaf
  refine returns_bind.mpr ⟨⟨shownStorage, [shownLeaf], shownLeaf⟩, ?_, ?_⟩
  · refine returns_bind.mpr ⟨_, ?_, rfl⟩
    refine returns_bind.mpr ⟨([shownLeaf], shownLeaf), ?_, ?_⟩
    · rw [returns_except, readProof, checkedProof_shownLeaf]
      rfl
    · refine returns_bind.mpr ⟨shownProof, ?_, ?_⟩
      · simp only [returns_except, shownAfter, Finmap.lookup_singleton_eq]
      · refine returns_bind.mpr ⟨[], returns_except.mpr horphans, rfl⟩
  · refine returns_bind.mpr ⟨shownLeaf, ?_, ?_⟩
    · rw [returns_option]
      rfl
    · rw [if_pos hash_shownLeaf, returns_pure]

theorem shows_shownLeaf : shownProof.Shows shownKeccak rlpCodec shownDigest Address.ZERO := by
  refine ⟨[shownLeaf], shownLeaf, some ⟨1, 1, EMPTY_ROOT, KECCAK_EMPTY⟩, checkedProof_ok checkedProof_shownLeaf, ?_,
    rfl, hash_shownLeaf, EthereumState.getRlp_leaf (s := ⟨shownLeaf, ∅⟩) get_shownLeaf, rfl⟩
  intro n hn
  rw [List.mem_singleton.mp hn]
  rfl

theorem transition_accepted_shownLeaf : ∃ s,
    (transitionProofsToTries shownKeccak 1 shownDigest (AList.singleton Address.ZERO shownProof) shownAfter).Returns s ∧
    s.Accepted shownKeccak rlpCodec shownDigest := by
  have hone {address : Address} {proof : AccountProof}
      (hl : (AList.singleton Address.ZERO shownProof : IteratedMap Address AccountProof).lookup address = some proof) :
      address = Address.ZERO ∧ proof = shownProof := by
    have hm := List.mem_singleton.mp (AList.mem_lookup_iff.mp hl)
    simp only [Sigma.mk.injEq, heq_eq_eq] at hm
    exact hm
  have hinj : Set.InjOn (fun address : Address => shownKeccak address.bytes)
      {address | address ∈ (AList.singleton Address.ZERO shownProof : IteratedMap Address AccountProof)} := by
    intro a ha b hb _
    rw [List.mem_singleton.mp ha, List.mem_singleton.mp hb]
  refine ⟨_, returns_shownLeaf, (transition_accepted returns_shownLeaf hinj).2.2.2.2 ?_ rfl addressable_shownLeaf ?_ ?_⟩
  · intro h
    cases congrArg AList.keys h.1
  · intro address proof nodes t hl hparse ht
    obtain ⟨-, rfl⟩ := hone hl
    rw [checkedProof_ok checkedProof_shownLeaf] at hparse
    cases hparse
    obtain rfl : shownLeaf = t := Except.ok.inj ht
    exact collisionFree_shownLeaf
  · intro address proof hl
    obtain ⟨rfl, rfl⟩ := hone hl
    exact shows_shownLeaf

/-- An account without slots whose proof is empty, and which declares any root. -/
def unshownProof : AccountProof := ⟨[], shownDigest, []⟩

/-- A zero root is returned as the empty one, and a declared storage root is not looked up. -/
theorem transition_unchecked :
    (∀ keccak, ∃ s, (transitionProofsToTries keccak 0 B256.ZERO ∅ ∅).Returns s ∧ s.stateRoot keccak ≠ B256.ZERO) ∧
    ∀ keccak, ∃ s, (transitionProofsToTries keccak 1 EMPTY_ROOT (AList.singleton Address.ZERO unshownProof)
        (Finmap.singleton Address.ZERO unshownProof)).Returns s ∧
      s.stateRoot keccak = EMPTY_ROOT ∧ ¬ s.StorageRootsMatch keccak rlpCodec := by
  constructor
  · intro keccak
    exact ⟨⟨default, ∅⟩, rfl, show EMPTY_ROOT ≠ B256.ZERO by decide⟩
  · intro keccak
    refine ⟨⟨default, (∅ : HashMap B256 MptNode).insert (keccak Address.ZERO.bytes) (.digest shownDigest)⟩, ?_, rfl, ?_⟩
    · refine returns_bind.mpr ⟨⟨_, [], default⟩, ?_, rfl⟩
      refine returns_bind.mpr ⟨_, ?_, rfl⟩
      refine returns_bind.mpr ⟨([], default), rfl, ?_⟩
      refine returns_bind.mpr ⟨unshownProof, ?_, rfl⟩
      simp only [returns_except, Finmap.lookup_singleton_eq]
    · intro hmatch
      have hl := @Finmap.lookup_insert _ (fun _ => MptNode) _ (keccak Address.ZERO.bytes) (.digest shownDigest) ∅
      have hroot := hmatch _ (EthereumState.mem_keys_iff.mpr ⟨_, hl⟩)
      rw [EthereumState.storageTrie_of_lookup hl, EthereumState.storageRootAt_of_absent rfl] at hroot
      exact absurd (Option.some.inj hroot) (show EMPTY_ROOT ≠ shownDigest by decide)

end Sample

end RethProcessor
