import RethProcessor.StateWitness
import RethProcessor.TrieFlags

/-! The input of the guest and the database over it. `witness_db` checks the tries against the
parent header and the headers against one another; what it returns answers from them alone. -/
namespace RethProcessor
open Calls

inductive Genesis where
  | mainnet
  | opMainnet
  | sepolia
  | linea
  | GOAT
  | goatTestnet
  | custom (json : String)
  deriving DecidableEq

structure Header where
  parentHash : B256
  ommersHash : B256
  beneficiary : Address
  stateRoot : B256
  transactionsRoot : B256
  receiptsRoot : B256
  logsBloom : BitVec 2048
  difficulty : U256
  number : UInt64
  gasLimit : UInt64
  gasUsed : UInt64
  timestamp : UInt64
  extraData : Bytes
  mixHash : B256
  nonce : BitVec 64
  baseFeePerGas : Option UInt64
  withdrawalsRoot : Option B256
  blobGasUsed : Option UInt64
  excessBlobGas : Option UInt64
  parentBeaconBlockRoot : Option B256
  requestsHash : Option B256
  deriving DecidableEq

/-- A header with its hash. -/
structure SealedHeader where
  header : Header
  hash : B256

/-- `SealedHeader::seal_slow`. -/
def SealedHeader.sealSlow (hashSlow : Header → B256) (header : Header) : SealedHeader := ⟨header, hashSlow header⟩

structure Block (Body : Type) where
  header : Header
  body : Body

structure ClientExecutorInput (Body : Type) where
  currentBlock : Block Body
  ancestorHeaders : List Header
  parentState : EthereumState
  bytecodes : List Bytes
  genesis : Genesis
  customBeneficiary : Option Address
  opcodeTracking : Bool

/-- The errors of `witness_db`. -/
inductive ClientError where
  | mismatchedStateRoot
  | mismatchedStorageRoot
  | invalidHeaderBlockNumber (expected found : UInt64)
  | invalidHeaderParentHash (expected found : B256)
  deriving DecidableEq

inductive ClientFailure where
  | err (e : ClientError)
  | panic
  deriving DecidableEq

structure TrieDB where
  inner : EthereumState
  blockHashes : HashMap UInt64 B256
  bytecodeByHash : HashMap B256 Bytes

structure AccountInfo where
  balance : U256
  nonce : UInt64
  codeHash : B256
  deriving DecidableEq

section Keccak
variable {Body : Type} (keccak : Bytes → B256) (codec : AccountCodec) (hashSlow : Header → B256)

/-- `sealed_headers`: the current header, and those of its ancestors. -/
def ClientExecutorInput.sealedHeaders (input : ClientExecutorInput Body) : List SealedHeader :=
  (input.currentBlock.header :: input.ancestorHeaders).map (SealedHeader.sealSlow hashSlow)

/-- The check of one storage trie against the leaf of its account. -/
def checkStorage (s : EthereumState) (entry : Σ _ : B256, MptNode) : Except ClientFailure Unit :=
  match s.stateTrie.getRlp codec.decode entry.1.bytes with
  | .error _ => .error .panic
  | .ok account =>
      if account.elim EMPTY_ROOT TrieAccount.storageRoot ≠ entry.2.hash keccak then
        .error (.err .mismatchedStorageRoot)
      else .ok ()

/-- The walk over adjacent headers. The numbers wrap, as they do in the release profile. -/
def checkHeaders (blockHashes : HashMap UInt64 B256) : List SealedHeader → Except ClientError (HashMap UInt64 B256)
  | child :: parent :: rest =>
      if parent.header.number ≠ child.header.number - 1 then
        .error (.invalidHeaderBlockNumber (parent.header.number + 1) child.header.number)
      else if parent.hash ≠ child.header.parentHash then
        .error (.invalidHeaderParentHash parent.hash child.header.parentHash)
      else checkHeaders (blockHashes.insert parent.header.number child.header.parentHash) (parent :: rest)
  | _ => .ok blockHashes

/-- `witness_db`, for the order in which the storage tries of the state are visited. -/
def witnessDb (input : ClientExecutorInput Body) (storageTries : IteratedMap B256 MptNode)
    (sealedHeaders : List SealedHeader) : Except ClientFailure TrieDB :=
  match input.ancestorHeaders with
  | [] => .error .panic
  | parentHeader :: _ =>
      if parentHeader.stateRoot ≠ input.parentState.stateRoot keccak then .error (.err .mismatchedStateRoot)
      else do
        storageTries.entries.forM (checkStorage keccak codec input.parentState)
        let bytecodesByHash := input.bytecodes.foldl (fun codes code => codes.insert (keccak code) code) ∅
        let blockHashes ← (checkHeaders ∅ sealedHeaders).mapError .err
        .ok ⟨input.parentState, blockHashes, bytecodesByHash⟩

namespace TrieDB

/-- `basic_ref`, unless it panics. -/
def basicRef (db : TrieDB) (address : Address) : Option (Option AccountInfo) :=
  match db.inner.stateTrie.getRlp codec.decode (keccak address.bytes).bytes with
  | .error _ => none
  | .ok account => some (account.map fun account => ⟨account.balance, account.nonce, account.codeHash⟩)

/-- `code_by_hash_ref`, unless it panics. -/
def codeByHashRef (db : TrieDB) (hash : B256) : Option Bytes := db.bytecodeByHash.lookup hash

/-- `storage_ref`, for a decoder of slot values, unless it panics. -/
def storageRef (decodeSlot : Bytes → Option U256) (db : TrieDB) (address : Address) (index : U256) : Option U256 :=
  match db.inner.storageTries.lookup (keccak address.bytes) with
  | none => none
  | some storageTrie =>
      match storageTrie.getRlp decodeSlot (keccak (toBeBytes index)).bytes with
      | .error _ => none
      | .ok value => some (value.getD 0)

/-- `block_hash_ref`, unless it panics. -/
def blockHashRef (db : TrieDB) (number : UInt64) : Option B256 := db.blockHashes.lookup number

end TrieDB

end Keccak

/-- A parent that its child points to is entered, and the walk goes on from it. -/
theorem checkHeaders_cons {child parent : SealedHeader} (hnumber : parent.header.number = child.header.number - 1)
    (hhash : parent.hash = child.header.parentHash) (blockHashes : HashMap UInt64 B256) (rest : List SealedHeader) :
    checkHeaders blockHashes (child :: parent :: rest) =
      checkHeaders (blockHashes.insert parent.header.number child.header.parentHash) (parent :: rest) := by
  rw [checkHeaders, if_neg (not_not.mpr hnumber), if_neg (not_not.mpr hhash)]

/-- A walk that goes on from a header has checked the one behind it. -/
theorem checkHeaders_cons_inv {child parent : SealedHeader} {rest : List SealedHeader}
    {blockHashes found : HashMap UInt64 B256} (h : checkHeaders blockHashes (child :: parent :: rest) = .ok found) :
    parent.header.number = child.header.number - 1 ∧ parent.hash = child.header.parentHash ∧
      checkHeaders (blockHashes.insert parent.header.number child.header.parentHash) (parent :: rest) = .ok found := by
  rw [checkHeaders] at h
  split at h
  · cases h
  · next hnumber =>
      split at h
      · cases h
      · next hhash => exact ⟨not_not.mp hnumber, not_not.mp hhash, h⟩

section Entered
variable {κ ν : Type} [DecidableEq κ] {key : ν → κ} {values : List ν} {found : HashMap κ ν} {k : κ}

/-- What is found under a key is one of the values that were entered, with that key. -/
theorem lookup_entered {v : ν} (h : (values.foldl (fun found v => found.insert (key v) v) found).lookup k = some v) :
    v ∈ values ∧ key v = k ∨ found.lookup k = some v := by
  induction values generalizing found with
  | nil => exact .inr h
  | cons first values ih =>
      rcases ih h with ⟨hmem, heq⟩ | hl
      · exact .inl ⟨List.mem_cons_of_mem _ hmem, heq⟩
      · by_cases hkey : k = key first
        · rw [hkey, Finmap.lookup_insert, Option.some.injEq] at hl
          exact .inl ⟨hl ▸ List.mem_cons_self, hl ▸ hkey.symm⟩
        · rw [Finmap.lookup_insert_of_ne _ hkey] at hl
          exact .inr hl

theorem exists_lookup_entered (h : (∃ v ∈ values, key v = k) ∨ k ∈ found) :
    ∃ v, (values.foldl (fun found v => found.insert (key v) v) found).lookup k = some v := by
  induction values generalizing found with
  | nil =>
      rcases h with ⟨v, hmem, -⟩ | hmem
      · cases hmem
      · exact Finmap.mem_iff.mp hmem
  | cons first values ih =>
      apply ih
      rcases h with ⟨v, hmem, heq⟩ | hmem
      · rcases List.mem_cons.mp hmem with rfl | hmem
        · exact .inr (Finmap.mem_insert.mpr (.inl heq.symm))
        · exact .inl ⟨v, hmem, heq⟩
      · exact .inr (Finmap.mem_insert.mpr (.inr hmem))

end Entered

section Checks
variable {Body : Type} {keccak : Bytes → B256} {codec : AccountCodec}

theorem checkStorage_ok_iff {s : EthereumState} {entry : Σ _ : B256, MptNode} :
    checkStorage keccak codec s entry = .ok () ↔ s.storageRootAt codec entry.1 = some (entry.2.hash keccak) := by
  rw [checkStorage, EthereumState.storageRootAt]
  cases s.stateTrie.getRlp codec.decode entry.1.bytes with
  | error f =>
      apply iff_of_false error_ne_ok
      intro h
      cases h
  | ok account =>
      by_cases hroot : account.elim EMPTY_ROOT TrieAccount.storageRoot = entry.2.hash keccak
      · simp only [ne_eq, hroot, not_true_eq_false, ↓reduceIte]
      · simp only [ne_eq, hroot, not_false_eq_true, ↓reduceIte, reduceCtorEq, Option.some.injEq]

/-- In whatever order the storage tries are visited, the check passes when they all match. -/
theorem checkStorage_forM_iff {s : EthereumState} {storageTries : IteratedMap B256 MptNode}
    (h : storageTries.toFinmap = s.storageTries) :
    storageTries.entries.forM (checkStorage keccak codec s) = .ok () ↔ s.StorageRootsMatch keccak codec := by
  have hlookup (k : B256) : s.storageTries.lookup k = storageTries.lookup k := by
    rw [← h, Finmap.lookup_toFinmap]
  rw [forM_ok_iff]
  constructor
  · intro hall k hmem
    obtain ⟨trie, hl⟩ := EthereumState.mem_keys_iff.mp hmem
    rw [EthereumState.storageTrie_of_lookup hl]
    exact checkStorage_ok_iff.mp (hall ⟨k, trie⟩ (AList.mem_lookup_iff.mp ((hlookup k).symm.trans hl)))
  · intro hmatch entry hentry
    have hl : s.storageTries.lookup entry.1 = some entry.2 :=
      (hlookup entry.1).trans (AList.mem_lookup_iff.mpr hentry)
    rw [checkStorage_ok_iff, hmatch entry.1 (EthereumState.mem_keys_iff.mpr ⟨_, hl⟩),
      EthereumState.storageTrie_of_lookup hl]

/-- `witness_db` returns a database exactly when it accepts the tries and the headers. -/
theorem witnessDb_ok_iff {input : ClientExecutorInput Body} {storageTries : IteratedMap B256 MptNode}
    (h : storageTries.toFinmap = input.parentState.storageTries) {sealedHeaders : List SealedHeader} {db : TrieDB} :
    witnessDb keccak codec input storageTries sealedHeaders = .ok db ↔
      (∃ parentHeader ∈ input.ancestorHeaders.head?,
        input.parentState.Accepted keccak codec parentHeader.stateRoot) ∧
      checkHeaders ∅ sealedHeaders = .ok db.blockHashes ∧ db.inner = input.parentState ∧
      db.bytecodeByHash = input.bytecodes.foldl (fun codes code => codes.insert (keccak code) code) ∅ := by
  rw [witnessDb]
  cases input.ancestorHeaders with
  | nil =>
      apply iff_of_false error_ne_ok
      rintro ⟨⟨parentHeader, hmem, -⟩, -⟩
      cases hmem
  | cons parentHeader rest =>
      dsimp only
      split
      · next hroot =>
          apply iff_of_false error_ne_ok
          rintro ⟨⟨_, hmem, haccepted⟩, -⟩
          cases hmem
          exact hroot haccepted.stateRoot
      · next hroot =>
          constructor
          · intro hdb
            obtain ⟨u, hstorage, hdb⟩ := bind_ok_inv hdb
            obtain ⟨blockHashes, hheaders, hdb⟩ := bind_ok_inv hdb
            rw [← Except.ok.inj hdb]
            exact ⟨⟨parentHeader, rfl, not_not.mp hroot, (checkStorage_forM_iff h).mp hstorage⟩,
              mapError_ok_iff.mp hheaders, rfl, rfl⟩
          · rintro ⟨⟨_, hmem, haccepted⟩, hheaders, hinner, hcodes⟩
            rw [(checkStorage_forM_iff h).mpr haccepted.storageRoots, hheaders, ← hinner, ← hcodes]
            rfl

end Checks

end RethProcessor
