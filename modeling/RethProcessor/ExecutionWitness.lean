import RethProcessor.StateProofs
import RethProcessor.TrieLeaves
import RethProcessor.WitnessDb

/-! The state that the host builds from an execution witness. An account of it has a storage trie
exactly when the witness has the root of its storage. -/
namespace RethProcessor
open Paths Rlp Calls

/-- The errors of `build_validated_tries`. -/
inductive TriesError where
  | accountNotDecoded
  | accountNotFound
  | mismatchedStorageRoot (hashedAddress expected actual : B256)
  deriving DecidableEq

inductive TriesFailure where
  | err (e : TriesError)
  | panic
  deriving DecidableEq

section Keccak
variable (keccak : Bytes → B256) (codec : AccountCodec)

/-- The nodes of a witness, each with the bytes that it is decoded from. -/
def decodeWitness (state : List Bytes) : Except TriesFailure (List (Bytes × MptNode)) :=
  state.mapM fun encoded =>
    match MptNode.decode encoded with
    | .ok node => .ok (encoded, node)
    | .error _ => .error .panic

/-- `node_by_hash`: the last node whose bytes have the hash. -/
def nodeByHash (decoded : List (Bytes × MptNode)) (hash : B256) : Option MptNode :=
  (decoded.reverse.find? fun entry => keccak entry.1 = hash).map Prod.snd

/-- The address and the storage root of a leaf. -/
def readLeaf (leaf : Bytes × Bytes) : Except TriesFailure (B256 × B256) :=
  match codec.decode leaf.2 with
  | none => .error .panic
  | some account => if h : leaf.1.length = 32 then .ok (⟨leaf.1, h⟩, account.storageRoot) else .error .panic

/-- What the callback of `for_each_leaves` gathers. -/
def rawStorageTries (stateTrie : MptNode) : Except TriesFailure (List (B256 × B256)) := do
  let leaves ← stateTrie.forEachLeaves.mapError fun _ => .panic
  leaves.mapM (readLeaf codec)

/-- One turn of the loop over the accounts. An account whose storage root is not in the witness is passed over. -/
def buildStorageTrie (fuel : Nat) (decoded : List (Bytes × MptNode)) (storageTries : IteratedMap B256 MptNode)
    (account : B256 × B256) : Call TriesFailure (IteratedMap B256 MptNode) :=
  match nodeByHash keccak decoded account.2 with
  | none => pure storageTries
  | some rootNode => do
      let storageTrie ← resolveNodes (storeOf keccak (decoded.map Prod.snd)) fuel rootNode
      if storageTrie.isDigest then throw .panic else pure (storageTries.insert account.1 storageTrie)

/-- One turn of the loop of `validate_storage_tries`. -/
def validateStorageTrie (stateTrie : MptNode) (entry : Σ _ : B256, MptNode) : Except TriesFailure Unit :=
  match stateTrie.getRlp codec.decode entry.1.bytes with
  | .error _ => .error (.err .accountNotDecoded)
  | .ok none => .error (.err .accountNotFound)
  | .ok (some account) =>
      if account.storageRoot ≠ entry.2.hash keccak then
        .error (.err (.mismatchedStorageRoot entry.1 account.storageRoot (entry.2.hash keccak)))
      else .ok ()

def validateStorageTries (stateTrie : MptNode) (storageTries : IteratedMap B256 MptNode) : Except TriesFailure Unit :=
  storageTries.entries.forM (validateStorageTrie keccak codec stateTrie)

/-- `build_validated_tries`, as the state that `from_execution_witness` makes of the tries. -/
def buildValidatedTries (fuel : Nat) (state : List Bytes) (preStateRoot : B256) : Call TriesFailure EthereumState := do
  let decoded ← decodeWitness state
  let root := (nodeByHash keccak decoded preStateRoot).getD (.digest preStateRoot)
  let stateTrie ← resolveNodes (storeOf keccak (decoded.map Prod.snd)) fuel root
  let accounts ← rawStorageTries codec stateTrie
  let storageTries ← accounts.foldlM (buildStorageTrie keccak fuel decoded) ∅
  if stateTrie.hash keccak ≠ preStateRoot then throw .panic
  else do
    validateStorageTries keccak codec stateTrie storageTries
    pure ⟨stateTrie, storageTries.toFinmap⟩

end Keccak

section Built
variable {keccak : Bytes → B256} {codec : AccountCodec} {fuel : Nat} {state : List Bytes} {preStateRoot : B256}
  {s : EthereumState} {decoded : List (Bytes × MptNode)}

theorem decodeWitness_ok (h : decodeWitness state = .ok decoded) :
    (∀ entry ∈ decoded, entry.1 ∈ state ∧ WellFlagged entry.2) ∧
      ∀ encoded ∈ state, ∃ node, (encoded, node) ∈ decoded := by
  have hone {encoded : Bytes} {entry : Bytes × MptNode} (he : (match MptNode.decode encoded with
      | .ok node => .ok (encoded, node)
      | .error _ => .error .panic : Except TriesFailure (Bytes × MptNode)) = .ok entry) :
      entry.1 = encoded ∧ WellFlagged entry.2 := by
    split at he
    · next node hnode =>
        rw [← Except.ok.inj he]
        exact ⟨rfl, decode_wellFlagged hnode⟩
    · cases he
  have hinv := mapM_ok_inv h
  constructor
  · intro entry hentry
    obtain ⟨encoded, hmem, he⟩ := hinv.2.1 entry hentry
    obtain ⟨hfst, hwell⟩ := hone he
    exact ⟨hfst ▸ hmem, hwell⟩
  · intro encoded hmem
    obtain ⟨entry, hentry, he⟩ := hinv.2.2 encoded hmem
    exact ⟨entry.2, (hone he).1 ▸ hentry⟩

theorem nodeByHash_some {hash : B256} {node : MptNode} (h : nodeByHash keccak decoded hash = some node) :
    ∃ encoded, (encoded, node) ∈ decoded ∧ keccak encoded = hash := by
  obtain ⟨entry, hfind, rfl⟩ := Option.map_eq_some_iff.mp h
  have hhash := List.find?_some hfind
  exact ⟨entry.1, List.mem_reverse.mp (List.mem_of_find?_eq_some hfind), of_decide_eq_true hhash⟩

theorem nodeByHash_ne_none {encoded : Bytes} {node : MptNode} (h : (encoded, node) ∈ decoded) :
    ∃ n, nodeByHash keccak decoded (keccak encoded) = some n := by
  have hfind : (decoded.reverse.find? fun entry => keccak entry.1 = keccak encoded).isSome :=
    List.find?_isSome.mpr ⟨_, List.mem_reverse.mpr h, decide_eq_true rfl⟩
  obtain ⟨entry, hentry⟩ := Option.isSome_iff_exists.mp hfind
  exact ⟨entry.2, by rw [nodeByHash, hentry, Option.map_some]⟩

theorem readLeaf_ok {leaf : Bytes × Bytes} {account : B256 × B256} (h : readLeaf codec leaf = .ok account) :
    ∃ a, codec.decode leaf.2 = some a ∧ account.1.bytes = leaf.1 ∧ account.2 = a.storageRoot := by
  rw [readLeaf] at h
  split at h
  · cases h
  · next a ha =>
      split at h
      · rw [← Except.ok.inj h]
        exact ⟨a, ha, rfl, rfl⟩
      · cases h

/-- The accounts that are gathered are those in the leaves of the state trie. -/
theorem rawStorageTries_ok {stateTrie : MptNode} {accounts : List (B256 × B256)}
    (h : rawStorageTries codec stateTrie = .ok accounts) :
    (∀ account ∈ accounts, ∃ ns value a, Stores stateTrie ns value ∧ pack ns = account.1.bytes ∧
      codec.decode value = some a ∧ account.2 = a.storageRoot) ∧
    ∀ hashed value a, Stores stateTrie (toNibs (B256.bytes hashed)) value → codec.decode value = some a →
      (hashed, a.storageRoot) ∈ accounts := by
  obtain ⟨leaves, hleaves, h⟩ := bind_ok_inv h
  have hcalls := mapError_ok_iff.mp hleaves
  obtain ⟨-, hfrom, hall⟩ := mapM_ok_inv h
  constructor
  · intro account haccount
    obtain ⟨⟨key, value⟩, hleaf, hread⟩ := hfrom account haccount
    obtain ⟨a, ha, hkey, hroot⟩ := readLeaf_ok hread
    obtain ⟨ns, hs, hpack⟩ := (mem_forEachLeaves hcalls).mp hleaf
    exact ⟨ns, value, a, hs, hpack.trans hkey.symm, ha, hroot⟩
  · intro hashed value a hs ha
    have hleaf : (hashed.bytes, value) ∈ leaves := (mem_forEachLeaves hcalls).mpr ⟨_, hs, pack_toNibs _⟩
    obtain ⟨⟨address, root⟩, haccount, hread⟩ := hall _ hleaf
    obtain ⟨a', ha', hkey, hroot⟩ := readLeaf_ok hread
    obtain rfl : a = a' := Option.some.inj (ha.symm.trans ha')
    obtain rfl : address = hashed := B256.ext hkey
    obtain rfl : root = a.storageRoot := hroot
    exact haccount

/-- What holds of the storage tries when some of the accounts are done. -/
structure Collects (keccak : Bytes → B256) (state : List Bytes) (done : List (B256 × B256))
    (storageTries : IteratedMap B256 MptNode) : Prop where
  shown : ∀ hashed trie, storageTries.lookup hashed = some trie →
    WellFlagged trie ∧ ∃ encoded ∈ state, (hashed, keccak encoded) ∈ done
  stored : ∀ hashed, ∀ encoded ∈ state, (hashed, keccak encoded) ∈ done → hashed ∈ storageTries

theorem collects_nil : Collects keccak state [] ∅ where
  shown hashed trie hl := by cases hl
  stored hashed encoded hmem hin := nomatch hin

theorem Collects.buildStorageTrie (hd : decodeWitness state = .ok decoded) {done : List (B256 × B256)}
    {storageTries storageTries' : IteratedMap B256 MptNode} {account : B256 × B256}
    (hc : Collects keccak state done storageTries)
    (h : (buildStorageTrie keccak fuel decoded storageTries account).Returns storageTries') :
    Collects keccak state (done ++ [account]) storageTries' := by
  obtain ⟨hfrom, hall⟩ := decodeWitness_ok hd
  rw [RethProcessor.buildStorageTrie] at h
  split at h
  · next hnone =>
      rw [returns_pure] at h
      rw [← h]
      refine ⟨?_, ?_⟩
      · intro hashed trie hl
        obtain ⟨hwell, encoded, hmem, hin⟩ := hc.shown hashed trie hl
        exact ⟨hwell, encoded, hmem, List.mem_append_left _ hin⟩
      · intro hashed encoded hmem hin
        rcases List.mem_append.mp hin with hin | hin
        · exact hc.stored hashed encoded hmem hin
        · obtain ⟨node, hnode⟩ := hall encoded hmem
          obtain ⟨n, hn⟩ := @nodeByHash_ne_none keccak decoded _ _ hnode
          rw [← List.mem_singleton.mp hin, hn] at hnone
          cases hnone
  · next rootNode hroot =>
      obtain ⟨storageTrie, hres, h⟩ := h.bind
      rw [returns_option] at hres
      split at h
      · exact absurd h not_returns_throw
      · rw [returns_pure] at h
        rw [← h]
        obtain ⟨encoded, hin, hhash⟩ := nodeByHash_some hroot
        have hwell : WellFlagged storageTrie := by
          refine (resolveNodes_wellFlagged ?_ (hfrom _ hin).2 hres).1
          intro n hn
          obtain ⟨entry, hentry, rfl⟩ := List.mem_map.mp hn
          exact (hfrom entry hentry).2
        refine ⟨?_, ?_⟩
        · intro hashed trie hl
          by_cases hk : hashed = account.1
          · rw [hk, AList.lookup_insert, Option.some.injEq] at hl
            refine ⟨hl ▸ hwell, encoded, (hfrom _ hin).1, List.mem_append_right _ ?_⟩
            rw [hk, hhash]
            exact List.mem_singleton.mpr rfl
          · rw [AList.lookup_insert_ne hk] at hl
            obtain ⟨hwell', encoded', hmem, hdone⟩ := hc.shown hashed trie hl
            exact ⟨hwell', encoded', hmem, List.mem_append_left _ hdone⟩
        · intro hashed encoded' hmem hdone
          rw [AList.mem_insert]
          rcases List.mem_append.mp hdone with hdone | hdone
          · exact .inr (hc.stored hashed encoded' hmem hdone)
          · exact .inl (congrArg Prod.fst (List.mem_singleton.mp hdone))

theorem getRlp_some_inv {α : Type} {decode : Bytes → Option α} {n : MptNode} {key : Bytes} {a : α}
    (h : n.getRlp decode key = .ok (some a)) : ∃ value, Stores n (toNibs key) value ∧ decode value = some a := by
  rw [MptNode.getRlp] at h
  split at h
  · cases h
  · cases h
  · next value hget =>
      split at h
      · next b hb =>
          obtain rfl : b = a := Option.some.inj (Except.ok.inj h)
          exact ⟨value, stores_of_getInternal hget, hb⟩
      · cases h

theorem validateStorageTrie_ok {stateTrie : MptNode} {entry : Σ _ : B256, MptNode}
    (h : validateStorageTrie keccak codec stateTrie entry = .ok ()) :
    ∃ account, stateTrie.getRlp codec.decode entry.1.bytes = .ok (some account) ∧
      account.storageRoot = entry.2.hash keccak := by
  rw [validateStorageTrie] at h
  split at h
  · cases h
  · cases h
  · next account haccount =>
      split at h
      · cases h
      · next hroot => exact ⟨account, haccount, not_not.mp hroot⟩

/-- An account of a state that is built has a storage trie exactly when the witness has the
root of its storage; the trie is then the one of that root. -/
theorem buildValidatedTries_storage (h : (buildValidatedTries keccak codec fuel state preStateRoot).Returns s)
    (hashed : B256) :
    (∀ trie, s.storageTries.lookup hashed = some trie → WellFlagged trie ∧ ∃ account,
      s.stateTrie.getRlp codec.decode hashed.bytes = .ok (some account) ∧ account.storageRoot = trie.hash keccak ∧
      ∃ encoded ∈ state, keccak encoded = account.storageRoot) ∧
    ∀ account, s.stateTrie.getRlp codec.decode hashed.bytes = .ok (some account) →
      (∃ encoded ∈ state, keccak encoded = account.storageRoot) → ∃ trie, s.storageTries.lookup hashed = some trie := by
  obtain ⟨decoded, hdecoded, h⟩ := h.bind
  obtain ⟨stateTrie, -, h⟩ := h.bind
  obtain ⟨accounts, haccounts, h⟩ := h.bind
  obtain ⟨storageTries, hfold, h⟩ := h.bind
  rw [returns_except] at hdecoded haccounts
  split at h
  · exact absurd h not_returns_throw
  · obtain ⟨u, hvalid, h⟩ := h.bind
    rw [returns_except, validateStorageTries, forM_ok_iff] at hvalid
    rw [returns_pure] at h
    obtain ⟨hfrom, hall⟩ := rawStorageTries_ok haccounts
    have hcollects : Collects keccak state accounts storageTries :=
      Call.Returns.foldlM (fun done tries account tries' hc hr => hc.buildStorageTrie hdecoded hr) collects_nil hfold
    rw [← h]
    simp only [Finmap.lookup_toFinmap]
    constructor
    · intro trie hl
      obtain ⟨hwell, encoded, hmem, hin⟩ := hcollects.shown hashed trie hl
      obtain ⟨account, hget, hroot⟩ := validateStorageTrie_ok (hvalid _ (AList.mem_lookup_iff.mp hl))
      refine ⟨hwell, account, hget, hroot, encoded, hmem, ?_⟩
      obtain ⟨value, hs, hdec⟩ := getRlp_some_inv hget
      obtain ⟨ns, value', a, hs', hpack, hdec', hroot'⟩ := hfrom _ hin
      -- a shorter key that is packed to the same bytes would end above the leaf of the account
      have hvalue : value' = value := by
        rcases toNibs_of_pack hpack with hns | hns
        · rw [hns] at hs'
          exact (@Stores.eq_of_append _ _ [] _ _ hs' (by rw [List.append_nil]; exact hs)).2
        · rw [← hns] at hs
          exact (hs'.eq_of_append hs).2
      rw [hvalue, hdec] at hdec'
      rw [Option.some.inj hdec']
      exact hroot'
    · rintro account hget ⟨encoded, hmem, hroot⟩
      obtain ⟨value, hs, hdec⟩ := getRlp_some_inv hget
      have hin := hall hashed value account hs hdec
      rw [← hroot] at hin
      exact Option.isSome_iff_exists.mp (AList.lookup_isSome.mpr (hcollects.stored hashed encoded hmem hin))

/-- A state that is built is one that `witness_db` accepts. -/
theorem buildValidatedTries_accepted (h : (buildValidatedTries keccak codec fuel state preStateRoot).Returns s) :
    s.Accepted keccak codec preStateRoot := by
  refine ⟨?_, ?_⟩
  · obtain ⟨decoded, -, h⟩ := h.bind
    obtain ⟨stateTrie, -, h⟩ := h.bind
    obtain ⟨accounts, -, h⟩ := h.bind
    obtain ⟨storageTries, -, h⟩ := h.bind
    split at h
    · exact absurd h not_returns_throw
    · next hroot =>
        obtain ⟨u, -, h⟩ := h.bind
        rw [returns_pure] at h
        rw [← h]
        exact (not_not.mp hroot).symm
  · intro hashed hmem
    obtain ⟨trie, hl⟩ := EthereumState.mem_keys_iff.mp hmem
    obtain ⟨-, account, hget, hroot, -⟩ := (buildValidatedTries_storage h hashed).1 trie hl
    rw [EthereumState.storageTrie_of_lookup hl, EthereumState.storageRootAt, hget]
    exact congrArg some hroot

end Built

end RethProcessor
