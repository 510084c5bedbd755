import RethProcessor.ExecutionWitness

/-! Reads of the storage over an execution witness. A storage trie that the witness leaves out is
zero everywhere for the host, and a panic for the guest. -/
namespace RethProcessor
open Paths Rlp Calls

section Keccak
variable (keccak : Bytes → B256) (codec : AccountCodec) (decodeSlot : Bytes → Option U256)

/-- How a read on the host fails. -/
inductive ReadFailure where
  | rlp
  | panic
  deriving DecidableEq

/-- `ExecutionWitnessRpcDb::storage_ref`, over a state and for a decoder of slot values. -/
def storageRef (s : EthereumState) (address : Address) (index : U256) : Except ReadFailure U256 :=
  match s.storageTries.lookup (keccak address.bytes) with
  | none => .ok 0
  | some storageTrie =>
      match storageTrie.get (keccak (toBeBytes index)).bytes with
      | .error _ => .error .panic
      | .ok none => .ok 0
      | .ok (some value) =>
          match decodeSlot value with
          | some slot => .ok slot
          | none => .error .rlp

/-- A value is what the leaf of an account commits to at a slot: zero if there is no leaf, and else
what every full trie with its storage root has there, short of collisions with the trie read. -/
def CommittedAt (s : EthereumState) (address : Address) (index v : U256) : Prop :=
  ∀ account, s.stateTrie.getRlp codec.decode (keccak address.bytes).bytes = .ok account →
    (account = none → v = 0) ∧ ∀ a t, account = some a → FullTrieOver 64 t → Addressable keccak t →
      CollisionFree keccak t (s.storageTrie (keccak address.bytes)) → t.hash keccak = a.storageRoot →
      ∃ o, t.getRlp decodeSlot (keccak (toBeBytes index)).bytes = .ok o ∧ o.getD 0 = v

/-- Host and guest answer a read alike, and with the committed value. -/
structure ReadsAlike (db : TrieDB) (address : Address) (index : U256) : Prop where
  agree : ∀ v, storageRef keccak decodeSlot db.inner address index = .ok v ↔
    db.storageRef keccak decodeSlot address index = some v
  committed : ∀ v, storageRef keccak decodeSlot db.inner address index = .ok v ∨
    db.storageRef keccak decodeSlot address index = some v →
    CommittedAt keccak codec decodeSlot db.inner address index v

end Keccak

section Reads
variable {keccak : Bytes → B256} {codec : AccountCodec} {decodeSlot : Bytes → Option U256} {address : Address}
  {index v : U256}

theorem storageRef_of_lookup {s : EthereumState} {trie : MptNode}
    (hl : s.storageTries.lookup (keccak address.bytes) = some trie) :
    storageRef keccak decodeSlot s address index = .ok v ↔
      ∃ o, trie.getRlp decodeSlot (keccak (toBeBytes index)).bytes = .ok o ∧ o.getD 0 = v := by
  simp only [storageRef, hl, MptNode.getRlp]
  cases trie.get (keccak (toBeBytes index)).bytes with
  | error f => simp
  | ok x =>
      cases x with
      | none => simp
      | some value =>
          cases hdec : decodeSlot value with
          | none => simp [hdec]
          | some slot => simp [hdec]

theorem TrieDB.storageRef_of_lookup {db : TrieDB} {trie : MptNode}
    (hl : db.inner.storageTries.lookup (keccak address.bytes) = some trie) :
    db.storageRef keccak decodeSlot address index = some v ↔
      ∃ o, trie.getRlp decodeSlot (keccak (toBeBytes index)).bytes = .ok o ∧ o.getD 0 = v := by
  simp only [TrieDB.storageRef, hl]
  cases trie.getRlp decodeSlot (keccak (toBeBytes index)).bytes with
  | error f => simp
  | ok o => simp

/-- Over the state of an accepted witness, host and guest read a slot alike exactly when the witness
has the root of the storage of its account. -/
theorem readsAlike_iff {fuel : Nat} {state : List Bytes} {preStateRoot : B256} {db : TrieDB}
    (h : (buildValidatedTries keccak codec fuel state preStateRoot).Returns db.inner)
    (hempty : keccak [EMPTY_STRING_CODE] = EMPTY_ROOT) (address : Address) (index : U256) :
    ReadsAlike keccak codec decodeSlot db address index ↔
      ∃ account, db.inner.stateTrie.getRlp codec.decode (keccak address.bytes).bytes = .ok (some account) ∧
        ∃ encoded ∈ state, keccak encoded = account.storageRoot := by
  obtain ⟨hsome, hall⟩ := buildValidatedTries_storage h (keccak address.bytes)
  constructor
  · intro halike
    cases hl : db.inner.storageTries.lookup (keccak address.bytes) with
    | some trie =>
        obtain ⟨-, account, hget, -, hencoded⟩ := hsome trie hl
        exact ⟨account, hget, hencoded⟩
    | none =>
        have hhost : storageRef keccak decodeSlot db.inner address index = .ok 0 := by
          simp only [storageRef, hl]
        have hguest := (halike.agree 0).mp hhost
        simp only [TrieDB.storageRef, hl] at hguest
        cases hguest
  · rintro ⟨account, hget, hencoded⟩
    obtain ⟨trie, hl⟩ := hall account hget hencoded
    obtain ⟨hwell, account', hget', hroot, -⟩ := hsome trie hl
    obtain rfl : account = account' := Option.some.inj (Except.ok.inj (hget.symm.trans hget'))
    refine ⟨fun v => (storageRef_of_lookup hl).trans (TrieDB.storageRef_of_lookup hl).symm, ?_⟩
    intro v hv
    rw [storageRef_of_lookup hl, TrieDB.storageRef_of_lookup hl, or_self] at hv
    obtain ⟨o, ho, hov⟩ := hv
    intro found hfound
    obtain rfl : some account = found := Except.ok.inj (hget.symm.trans hfound)
    refine ⟨fun h => (nomatch h), ?_⟩
    intro a t ha ht hlen hfree hhash
    cases ha
    rw [EthereumState.storageTrie_of_lookup hl] at hfree
    refine ⟨o, getRlp_of_get ?_ ho, hov⟩
    intro x hx
    exact ht.full.get_of_hash hwell hlen hfree hempty (hhash.trans hroot) hx

end Reads

section Sample

/-- The digest of the slot 0. -/
def zeroSlotHash : B256 :=
  ⟨[0x29, 0x0d, 0xec, 0xd9, 0x54, 0x8b, 0x62, 0xa8, 0xd6, 0x03, 0x45, 0xa9, 0x88, 0x38, 0x6f, 0xc8,
    0x4b, 0xa6, 0xbc, 0x95, 0x48, 0x40, 0x08, 0xf6, 0x36, 0x2f, 0x93, 0x16, 0x0e, 0xf3, 0xe5, 0x63], rfl⟩

/-- A storage with the value 1 in the slot 0. -/
def slotLeaf : MptNode := .leaf (toEncodedPath zeroSlotHash.nibs true) [1]

def slotLeafEncoding : Bytes := [0xe3, 0xa1, 0x20] ++ zeroSlotHash.bytes ++ [1]

def slotLeafDigest : B256 :=
  ⟨[0x82, 0x1e, 0x25, 0x56, 0xa2, 0x90, 0xc8, 0x64, 0x05, 0xf8, 0x16, 0x0a, 0x2d, 0x66, 0x20, 0x42,
    0xa4, 0x31, 0xba, 0x45, 0x6b, 0x9d, 0xb2, 0x65, 0xc7, 0x9b, 0xb8, 0x37, 0xc0, 0x4b, 0xe5, 0xf0], rfl⟩

def owner : TrieAccount := ⟨1, 1, slotLeafDigest, KECCAK_EMPTY⟩

/-- A state of one account with that storage. -/
def ownerLeaf : MptNode := .leaf (toEncodedPath zeroAddressHash.nibs true) (rlpCodec.encode owner)

def ownerEncoding : Bytes :=
  [0xf8, 0x6a, 0xa1, 0x20] ++ zeroAddressHash.bytes ++ [0xb8, 0x46, 0xf8, 0x44, 1, 1, 0xa0] ++ slotLeafDigest.bytes ++
    [0xa0] ++ KECCAK_EMPTY.bytes

def ownerDigest : B256 :=
  ⟨[0xe0, 0xe5, 0x9a, 0x9d, 0xd0, 0x05, 0x14, 0x2d, 0xb9, 0x47, 0x3a, 0xc9, 0x66, 0xc8, 0x3b, 0x5b,
    0x79, 0x8a, 0x31, 0xc8, 0x38, 0x61, 0xc4, 0x58, 0x01, 0x34, 0x7a, 0x9c, 0x0c, 0x65, 0x51, 0xa9], rfl⟩

def ownerKeccak : Bytes → B256 :=
  tableKeccak [(Address.ZERO.bytes, zeroAddressHash), (toBeBytes 0, zeroSlotHash),
    (slotLeafEncoding, slotLeafDigest), (ownerEncoding, ownerDigest)]

theorem encode_slotLeaf : slotLeaf.encode ownerKeccak = slotLeafEncoding := by
  rw [slotLeaf, encode_leaf]
  rfl

theorem encode_ownerLeaf : ownerLeaf.encode ownerKeccak = ownerEncoding := by
  rw [ownerLeaf, encode_leaf]
  rfl

theorem encodings_slotLeaf : encodings ownerKeccak slotLeaf = {slotLeafEncoding} := by
  rw [← encode_slotLeaf]
  exact encodings_leaf _ _

theorem addressable_slotLeaf : Addressable ownerKeccak slotLeaf :=
  addressable_leaf (n := 36) rfl (by decide)

theorem decode_slotLeaf : MptNode.decode slotLeafEncoding = .ok slotLeaf := by
  rw [← encode_slotLeaf]
  exact (fullTrieOver_leaf _ _).full.decode addressable_slotLeaf

theorem decode_ownerLeaf : MptNode.decode ownerEncoding = .ok ownerLeaf := by
  have haddr : Addressable ownerKeccak ownerLeaf := addressable_leaf (n := 108) rfl (by decide)
  rw [← encode_ownerLeaf]
  exact (fullTrieOver_leaf _ _).full.decode haddr

theorem hash_slotLeaf : slotLeaf.hash ownerKeccak = slotLeafDigest := by
  rw [hash_of_isListed rfl, encode_slotLeaf]
  rfl

theorem hash_ownerLeaf : ownerLeaf.hash ownerKeccak = ownerDigest := by
  rw [hash_of_isListed rfl, encode_ownerLeaf]
  rfl

theorem keccak_zeroAddress : ownerKeccak Address.ZERO.bytes = zeroAddressHash := rfl

theorem keccak_ownerEncoding : ownerKeccak ownerEncoding = ownerDigest := rfl

theorem keccak_slotLeafEncoding : ownerKeccak slotLeafEncoding = slotLeafDigest := rfl

theorem accounts_ownerLeaf : rawStorageTries rlpCodec ownerLeaf = .ok [(zeroAddressHash, slotLeafDigest)] := by
  have hleaves : ownerLeaf.forEachLeaves =
      .ok [(zeroAddressHash.bytes, rlpCodec.encode owner)] := by
    rw [ownerLeaf, forEachLeaves_leaf (Nat.le_of_eq (B256.nibs_length _)), B256.nibs, pack_toNibs]
  have hread : readLeaf rlpCodec (zeroAddressHash.bytes, rlpCodec.encode owner) =
      .ok (zeroAddressHash, slotLeafDigest) := by
    simp only [readLeaf, rlpCodec.decode_encode]
    rfl
  have hmap : [(zeroAddressHash.bytes, rlpCodec.encode owner)].mapM
      (readLeaf rlpCodec) = .ok [(zeroAddressHash, slotLeafDigest)] := by
    rw [List.mapM_cons, hread]
    rfl
  rw [rawStorageTries, hleaves]
  exact hmap

theorem getRlp_ownerLeaf : ownerLeaf.getRlp rlpCodec.decode zeroAddressHash.bytes =
    .ok (some owner) := by
  have hget : ownerLeaf.get zeroAddressHash.bytes =
      .ok (some (rlpCodec.encode owner)) := by
    simp [ownerLeaf, get_eq_nibs]
  exact @EthereumState.getRlp_leaf _ ⟨ownerLeaf, ∅⟩ _ _ hget

theorem returns_ownerLeaf :
    (buildValidatedTries ownerKeccak rlpCodec 1 [ownerEncoding] ownerDigest).Returns ⟨ownerLeaf, ∅⟩ := by
  refine returns_bind.mpr ⟨[(ownerEncoding, ownerLeaf)], ?_, ?_⟩
  · rw [returns_except, decodeWitness, List.mapM_cons, decode_ownerLeaf]
    rfl
  · have hroot : nodeByHash ownerKeccak [(ownerEncoding, ownerLeaf)] ownerDigest = some ownerLeaf := by
      simp [nodeByHash, keccak_ownerEncoding]
    have hstorage : nodeByHash ownerKeccak [(ownerEncoding, ownerLeaf)] slotLeafDigest = none := by
      have hne : ownerDigest ≠ slotLeafDigest := by decide
      simp [nodeByHash, keccak_ownerEncoding, hne]
    refine returns_bind.mpr ⟨ownerLeaf, ?_, ?_⟩
    · rw [returns_option, hroot]
      rfl
    · refine returns_bind.mpr ⟨_, returns_except.mpr accounts_ownerLeaf, ?_⟩
      refine returns_bind.mpr ⟨∅, ?_, ?_⟩
      · rw [List.foldlM_cons, buildStorageTrie, hstorage]
        rfl
      · rw [if_neg (not_not.mpr hash_ownerLeaf)]
        rfl

theorem returns_ownerLeaf_slotLeaf :
    (buildValidatedTries ownerKeccak rlpCodec 1 [ownerEncoding, slotLeafEncoding] ownerDigest).Returns
      ⟨ownerLeaf, AList.toFinmap (AList.insert zeroAddressHash slotLeaf ∅)⟩ := by
  refine returns_bind.mpr ⟨[(ownerEncoding, ownerLeaf), (slotLeafEncoding, slotLeaf)], ?_, ?_⟩
  · rw [returns_except, decodeWitness, List.mapM_cons, List.mapM_cons, decode_ownerLeaf, decode_slotLeaf]
    rfl
  · have hne : slotLeafDigest ≠ ownerDigest := by decide
    have hroot : nodeByHash ownerKeccak [(ownerEncoding, ownerLeaf), (slotLeafEncoding, slotLeaf)] ownerDigest =
        some ownerLeaf := by
      simp [nodeByHash, keccak_ownerEncoding, keccak_slotLeafEncoding, hne]
    have hstorage : nodeByHash ownerKeccak [(ownerEncoding, ownerLeaf), (slotLeafEncoding, slotLeaf)] slotLeafDigest =
        some slotLeaf := by
      simp [nodeByHash, keccak_slotLeafEncoding]
    refine returns_bind.mpr ⟨ownerLeaf, ?_, ?_⟩
    · rw [returns_option, hroot]
      rfl
    · refine returns_bind.mpr ⟨_, returns_except.mpr accounts_ownerLeaf, ?_⟩
      refine returns_bind.mpr ⟨AList.insert zeroAddressHash slotLeaf ∅, ?_, ?_⟩
      · rw [List.foldlM_cons, buildStorageTrie, hstorage]
        rfl
      · rw [if_neg (not_not.mpr hash_ownerLeaf)]
        refine returns_bind.mpr ⟨(), ?_, rfl⟩
        rw [returns_except, validateStorageTries, forM_ok_iff]
        intro entry hentry
        obtain rfl : entry = ⟨zeroAddressHash, slotLeaf⟩ := List.mem_singleton.mp hentry
        simp only [validateStorageTrie, getRlp_ownerLeaf, hash_slotLeaf, owner, ne_eq, not_true_eq_false, ↓reduceIte]

/-- A decoder of slot values: a string of at most 32 bytes without leading zeros. -/
def decodeUintRlp (bytes : Bytes) : Option U256 :=
  ((decodeValue bytes).toOption.bind (TrieAccount.decodeUint 32)).map (.ofNat 256)

theorem getRlp_slotLeaf : slotLeaf.getRlp decodeUintRlp zeroSlotHash.bytes = .ok (some 1) := by
  have hget : slotLeaf.get zeroSlotHash.bytes = .ok (some [1]) := by
    simp [slotLeaf, get_eq_nibs]
  rw [MptNode.getRlp, hget]
  rfl

theorem readsAlike_iff_slotLeaf : ∃ s,
    (buildValidatedTries ownerKeccak rlpCodec 1 [ownerEncoding, slotLeafEncoding] ownerDigest).Returns s ∧
    ∀ blockHashes codes, ReadsAlike ownerKeccak rlpCodec decodeUintRlp ⟨s, blockHashes, codes⟩ Address.ZERO 0 := by
  refine ⟨_, returns_ownerLeaf_slotLeaf, ?_⟩
  intro blockHashes codes
  refine (readsAlike_iff returns_ownerLeaf_slotLeaf rfl _ _).mpr
    ⟨owner, ?_, slotLeafEncoding, ?_, keccak_slotLeafEncoding⟩
  · rw [keccak_zeroAddress]
    exact getRlp_ownerLeaf
  · exact List.mem_cons_of_mem _ List.mem_cons_self

/-- Where the storage of an account is left out, the host reads zero from a slot that holds one,
and the guest panics. -/
theorem omitted_storage : ∃ s,
    (buildValidatedTries ownerKeccak rlpCodec 1 [ownerEncoding] ownerDigest).Returns s ∧
    storageRef ownerKeccak decodeUintRlp s Address.ZERO 0 = .ok 0 ∧
    (∀ blockHashes codes, TrieDB.storageRef ownerKeccak decodeUintRlp ⟨s, blockHashes, codes⟩ Address.ZERO 0 = none) ∧
    ¬ CommittedAt ownerKeccak rlpCodec decodeUintRlp s Address.ZERO 0 0 := by
  refine ⟨_, returns_ownerLeaf, rfl, fun blockHashes codes => rfl, ?_⟩
  intro hcommitted
  rw [CommittedAt, keccak_zeroAddress] at hcommitted
  have hfree : CollisionFree ownerKeccak slotLeaf .null := by
    have hinj : ∀ x ∈ [[EMPTY_STRING_CODE], slotLeafEncoding], ∀ y ∈ [[EMPTY_STRING_CODE], slotLeafEncoding],
        ownerKeccak x = ownerKeccak y → x = y := by decide +kernel
    refine collisionFree_of_mem hinj List.mem_cons_self ?_ ?_
    · intro e he
      rw [encodings_slotLeaf] at he
      exact List.mem_cons_of_mem _ (List.mem_singleton.mpr he)
    · intro e he
      rw [encodings_null] at he
      cases he
  obtain ⟨o, ho, hov⟩ := (hcommitted _ getRlp_ownerLeaf).2 owner slotLeaf rfl (fullTrieOver_leaf _ _)
    addressable_slotLeaf hfree hash_slotLeaf
  have hzero : ownerKeccak (toBeBytes 0) = zeroSlotHash := rfl
  rw [hzero, getRlp_slotLeaf] at ho
  rw [← Except.ok.inj ho] at hov
  cases hov

end Sample

end RethProcessor
