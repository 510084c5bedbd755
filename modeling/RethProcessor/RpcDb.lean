import RethProcessor.World
import RethProcessor.StorageReads
import Mathlib.Data.Finset.Sort

/-! The database of the host. It answers from a provider and records what it was asked for; what it
has recorded it fetches the proofs of, before the block and after it. -/
namespace RethProcessor
open Calls Programs Rlp

structure EIP1186StorageProof where
  key : B256
  value : U256
  proof : List Bytes

structure EIP1186AccountProofResponse where
  address : Address
  balance : U256
  codeHash : B256
  nonce : UInt64
  storageHash : B256
  accountProof : List Bytes
  storageProof : List EIP1186StorageProof

/-- `eip1186_proof_to_account_proof`, for what is read of its result. -/
def EIP1186AccountProofResponse.toAccountProof (proof : EIP1186AccountProofResponse) : AccountProof where
  proof := proof.accountProof
  storageRoot :=
    if proof.nonce = 0 ∧ proof.balance = 0 ∧ proof.storageHash = B256.ZERO ∧ proof.codeHash = B256.ZERO then EMPTY_ROOT
    else proof.storageHash
  storageProofs := proof.storageProof.map fun storageProof => ⟨storageProof.key, storageProof.proof⟩

/-- What a provider is asked about the state at a block. -/
structure StateProvider where
  getProof : Address → List B256 → UInt64 → Except String EIP1186AccountProofResponse
  getCodeAt : Address → UInt64 → Except String Bytes
  getStorageAt : Address → U256 → UInt64 → Except String U256

/-- The errors of the databases of the host, and of the reads from them. -/
inductive RpcFailure where
  | transport (text : String)
  | fromProof (e : ProofFailure)
  | getProofError (address : Address) (text : String)
  | getCodeError (address : Address) (text : String)
  | getStorageError (address : Address) (index : U256) (text : String)
  | block (e : RpcDbError)
  | trieWitness (e : Error)
  | rlp
  | codeNotFound (hash : B256)
  | headerNotFound (number : UInt64)
  | panic

theorem toBeBytes_length (n : U256) : (toBeBytes n).length = 32 := by
  have hle : (bigEndian n.toNat).length ≤ 32 := bigEndian_length_le (k := 32) n.isLt
  rw [toBeBytes, List.length_append, List.length_replicate]
  omega

/-- `B256::from` of an integer. -/
def B256.ofU256 (n : U256) : B256 := ⟨toBeBytes n, toBeBytes_length n⟩

/-- A set of integers in the order of a `BTreeSet`. -/
def btreeSet (s : Finset U256) : List U256 := ((s.image BitVec.toNat).sort).map (BitVec.ofNat 256)

/-- The orders in which the hash maps of the host are visited. -/
structure Iteration where
  addresses : Finset Address → List Address
  proofs : IteratedMap Address AccountProof → IteratedMap Address AccountProof
  codes : HashMap Address (AccountInfo × Bytes) → List Bytes
  mem_addresses : ∀ s a, a ∈ addresses s ↔ a ∈ s
  perm_proofs : ∀ m, (proofs m).entries.Perm m.entries
  mem_codes : ∀ m code, code ∈ codes m ↔ ∃ address info, m.lookup address = some (info, code)

/-- `BasicRpcDb`, with the state that it is asked for. -/
structure StateRpcDb extends BasicRpcDb where
  stateProvider : StateProvider
  stateRoot : B256
  accounts : HashMap Address (AccountInfo × Bytes)
  storage : HashMap Address (HashMap U256 U256)

/-- The entries of a list, collected into a map. -/
def collect (l : List (Address × AccountProof)) : IteratedMap Address AccountProof :=
  l.foldl (fun m entry => m.insert entry.1 entry.2) ∅

namespace StateRpcDb

def new (provider : Provider) (stateProvider : StateProvider) (blockNumber : UInt64) (stateRoot : B256) : StateRpcDb :=
  ⟨.new provider blockNumber, stateProvider, stateRoot, ∅, ∅⟩

def recordAccount (db : StateRpcDb) (address : Address) (account : AccountInfo × Bytes) : StateRpcDb :=
  { db with accounts := db.accounts.insert address account }

def recordStorage (db : StateRpcDb) (address : Address) (index value : U256) : StateRpcDb :=
  { db with storage := db.storage.insert address (((db.storage.lookup address).getD ∅).insert index value) }

/-- `fetch_account_info`, and the database that it leaves. -/
def fetchAccountInfo (db : StateRpcDb) (address : Address) : Except RpcFailure (AccountInfo × Bytes) × StateRpcDb :=
  match db.stateProvider.getProof address [] db.blockNumber with
  | .error text => (.error (.getProofError address text), db)
  | .ok proof =>
      match db.stateProvider.getCodeAt address db.blockNumber with
      | .error text => (.error (.getCodeError address text), db)
      | .ok code =>
          let codeHash := if proof.codeHash = B256.ZERO then KECCAK_EMPTY else proof.codeHash
          let accountInfo : AccountInfo := ⟨proof.balance, proof.nonce, codeHash⟩
          (.ok (accountInfo, code), db.recordAccount address (accountInfo, code))

/-- `fetch_storage_at`, and the database that it leaves. -/
def fetchStorageAt (db : StateRpcDb) (address : Address) (index : U256) : Except RpcFailure U256 × StateRpcDb :=
  match db.stateProvider.getStorageAt address index db.blockNumber with
  | .error text => (.error (.getStorageError address index text), db)
  | .ok value => (.ok value, db.recordStorage address index value)

/-- `fetch_block_hash`, and the database that it leaves. -/
def fetchBlockHash (db : StateRpcDb) (number : UInt64) : Except RpcFailure B256 × StateRpcDb :=
  let (reply, next) := db.toBasicRpcDb.fetchBlockHash number
  (reply.mapError .block, { db with toBasicRpcDb := next })

/-- The addresses of `get_state_requests`. -/
def requested (db : StateRpcDb) : Finset Address := db.accounts.keys ∪ db.storage.keys

/-- The keys that `get_state_requests` gives for an address. -/
def usedKeys (db : StateRpcDb) (address : Address) : Finset U256 := ((db.storage.lookup address).map Finmap.keys).getD ∅

section Proofs
variable (modified : Address → Finset U256)

def modifiedKeys (address : Address) : List B256 := (btreeSet (modified address)).map .ofU256

def keys (db : StateRpcDb) (address : Address) : List B256 :=
  (btreeSet (db.usedKeys address ∪ modified address)).map .ofU256

/-- The proofs of one account: at the block of the database, and at the one after it. -/
def fetchProofs (db : StateRpcDb) (address : Address) :
    Except RpcFailure (EIP1186AccountProofResponse × EIP1186AccountProofResponse) := do
  let before ← (db.stateProvider.getProof address (db.keys modified address) db.blockNumber).mapError .transport
  let after ← (db.stateProvider.getProof address (modifiedKeys modified address) (db.blockNumber + 1)).mapError .transport
  .ok (before, after)

/-- `RpcDb::state` of `BasicRpcDb`. -/
def state (keccak : Bytes → B256) (iteration : Iteration) (fuel : Nat) (db : StateRpcDb) : Call RpcFailure EthereumState := do
  let proofs ← (liftM ((iteration.addresses db.requested).mapM (db.fetchProofs modified)) : Call RpcFailure _)
  let before := collect (proofs.map fun proof => (proof.1.address, proof.1.toAccountProof))
  let after := collect (proofs.map fun proof => (proof.2.address, proof.2.toAccountProof))
  ExceptT.adapt .fromProof
    (transitionProofsToTries keccak fuel db.stateRoot (iteration.proofs before) after.toFinmap)

end Proofs

/-- `bytecodes`: one code for each hash, in the order of a `BTreeMap`. -/
def bytecodes (keccak : Bytes → B256) (iteration : Iteration) (db : StateRpcDb) : List Bytes :=
  let codes := iteration.codes db.accounts
  let hashes := ((codes.map fun code => keccak code).dedup).mergeSort fun a b => decide (a.bytes ≤ b.bytes)
  hashes.filterMap fun hash => codes.reverse.find? fun code => keccak code = hash

end StateRpcDb

/-- The database below the execution of the host. The codes of the accounts that were loaded are kept
above it, and it is asked for no other. -/
structure CacheDb where
  db : StateRpcDb
  contracts : HashMap B256 Bytes

def CacheDb.new (db : StateRpcDb) : CacheDb := ⟨db, ∅⟩

/-- A query to it, and what it leaves. -/
def CacheDb.fetch : (q : Query) → CacheDb → Except RpcFailure q.Reply × CacheDb
  | .basic address, cache =>
      match cache.db.fetchAccountInfo address with
      | (.error e, db) => (.error e, { cache with db := db })
      | (.ok (info, code), db) => (.ok (some info), ⟨db, cache.contracts.insert info.codeHash code⟩)
  | .codeByHash hash, cache =>
      match cache.contracts.lookup hash with
      | some code => (.ok code, cache)
      | none => (.error .panic, cache)
  | .storage address index, cache =>
      let (reply, db) := cache.db.fetchStorageAt address index
      (reply, { cache with db := db })
  | .blockHash number, cache =>
      let (reply, db) := cache.db.fetchBlockHash number
      (reply, { cache with db := db })

/-- The trait `RpcDb`, with the making of its databases: a query may change what the database has
recorded, and the state is asked for with the slots that were changed. -/
structure RpcDb (σ : Type) where
  new : UInt64 → B256 → Call RpcFailure σ
  fetch : (q : Query) → σ → Except RpcFailure q.Reply × σ
  state : (Address → Finset U256) → σ → Call RpcFailure EthereumState
  bytecodes : σ → List Bytes
  ancestorHeaders : σ → Except RpcFailure (List Header)

/-- `RpcDb` for `BasicRpcDb`. -/
def CacheDb.rpcDb (provider : Provider) (stateProvider : StateProvider) (keccak : Bytes → B256) (iteration : Iteration)
    (fuel : Nat) : RpcDb CacheDb where
  new blockNumber stateRoot := pure (.new (.new provider stateProvider blockNumber stateRoot))
  fetch := fetch
  state modified cache := cache.db.state modified keccak iteration fuel
  bytecodes cache := cache.db.bytecodes keccak iteration
  ancestorHeaders cache := cache.db.ancestorHeaders.mapError .block

def World.accountOrEmpty (w : World) (address : Address) : AccountInfo := (w.account address).getD .empty

/-- What the host answers in a world, with the hashes that a provider gives. -/
def World.hostAnswer (w : World) (provider : Provider) : (q : Query) → Option q.Reply
  | .basic address => some (some (w.accountOrEmpty address))
  | .blockHash number =>
      match provider number with
      | .ok (some block) => some block.hash
      | _ => none
  | q => w.answer q

/-- The account info that `fetch_account_info` reads of a response. -/
def EIP1186AccountProofResponse.info (response : EIP1186AccountProofResponse) : AccountInfo :=
  ⟨response.balance, response.nonce, if response.codeHash = B256.ZERO then KECCAK_EMPTY else response.codeHash⟩

/-- A response with the honest proofs of an account and of some of its slots. Where there is no
account all its fields may be zero. -/
structure EIP1186AccountProofResponse.Shows (keccak : Bytes → B256) (stateTrie storageTrie : MptNode)
    (address : Address) (keys : List B256) (response : EIP1186AccountProofResponse) : Prop where
  address_eq : response.address = address
  accountProof : response.accountProof = honestProof keccak stateTrie (keccak address.bytes).bytes
  storageProof : response.toAccountProof.storageProofs = honestSlots keccak storageTrie keys
  storageHash : (response.storageHash = storageTrie.hash keccak ∧ response.storageHash ≠ B256.ZERO) ∨
    response.nonce = 0 ∧ response.balance = 0 ∧ response.storageHash = B256.ZERO ∧ response.codeHash = B256.ZERO ∧
      storageTrie.hash keccak = EMPTY_ROOT

/-- A provider that is honest about the state at a block, which a world is held in, and gives honest
proofs of the state after it. -/
structure HonestStates (keccak : Bytes → B256) (provider : StateProvider) (w : World) (f f' : EthereumState)
    (after : B256 → MptNode) (last : UInt64) : Prop where
  code : ∀ address, provider.getCodeAt address last = .ok (w.code (w.accountOrEmpty address).codeHash)
  codeHash : ∀ address, keccak (w.code (w.accountOrEmpty address).codeHash) = (w.accountOrEmpty address).codeHash
  storage : ∀ address index, provider.getStorageAt address index last = .ok (w.storage address index)
  before : ∀ address keys, ∃ response, provider.getProof address keys last = .ok response ∧
    response.Shows keccak f.stateTrie (f.storageTrie (keccak address.bytes)) address keys ∧
    response.info = w.accountOrEmpty address
  after : ∀ address keys, ∃ response, provider.getProof address keys (last + 1) = .ok response ∧
    response.Shows keccak f'.stateTrie (after (keccak address.bytes)) address keys

theorem EIP1186AccountProofResponse.Shows.honest {keccak : Bytes → B256} {stateTrie storageTrie : MptNode}
    {address : Address} {keys : List B256} {response : EIP1186AccountProofResponse}
    (h : response.Shows keccak stateTrie storageTrie address keys) (hempty : EMPTY_ROOT ≠ B256.ZERO) :
    response.toAccountProof.Honest keccak stateTrie storageTrie address keys := by
  refine ⟨h.accountProof, h.storageProof, ?_⟩
  rcases h.storageHash with ⟨hroot, hne⟩ | ⟨hnonce, hbalance, hzero, hcode, hroot⟩
  · have hstorage : response.toAccountProof.storageRoot = response.storageHash := if_neg fun hall => hne hall.2.2.1
    rw [AccountProof.declaredRoot, hstorage, B256.emptyFromZero, if_neg hne, ite_self, hroot]
  · have hstorage : response.toAccountProof.storageRoot = EMPTY_ROOT := if_pos ⟨hnonce, hbalance, hzero, hcode⟩
    rw [AccountProof.declaredRoot, hstorage, B256.emptyFromZero, if_neg hempty, ite_self, hroot]

/-- What a database has recorded of the questions. -/
def CacheDb.Recorded (w : World) (cache : CacheDb) : Query → Prop
  | .basic address => address ∈ cache.db.accounts
  | .codeByHash hash => ∃ address ∈ cache.db.accounts, (w.accountOrEmpty address).codeHash = hash
  | .storage address index => index ∈ cache.db.usedKeys address
  | .blockHash number => cache.db.oldestAncestor ≤ number

/-- A database over a provider that has recorded nothing but what is in the world. -/
structure CacheDb.Truthful (provider : Provider) (states : StateProvider) (w : World) (last : UInt64) (stateRoot : B256)
    (cache : CacheDb) : Prop where
  provider : cache.db.provider = provider
  states : cache.db.stateProvider = states
  blockNumber : cache.db.blockNumber = last
  stateRoot : cache.db.stateRoot = stateRoot
  oldest : cache.db.oldestAncestor ≤ last
  accounts : ∀ address account, cache.db.accounts.lookup address = some account →
    account = (w.accountOrEmpty address, w.code (w.accountOrEmpty address).codeHash)
  contracts : ∀ hash code, cache.contracts.lookup hash = some code →
    ∃ address ∈ cache.db.accounts, (w.accountOrEmpty address).codeHash = hash ∧ code = w.code hash

section Records
variable {keccak : Bytes → B256} {provider : Provider} {states : StateProvider} {w : World} {f f' : EthereumState}
  {after : B256 → MptNode} {last : UInt64} {stateRoot : B256} {cache : CacheDb}

namespace CacheDb

/-- What is recorded of an account. -/
abbrev loaded (w : World) (address : Address) : AccountInfo × Bytes :=
  (w.accountOrEmpty address, w.code (w.accountOrEmpty address).codeHash)

theorem fetch_basic (hs : HonestStates keccak states w f f' after last)
    (h : cache.Truthful provider states w last stateRoot) (address : Address) :
    cache.fetch (.basic address) = (.ok (some (w.accountOrEmpty address)),
      ⟨cache.db.recordAccount address (loaded w address),
        cache.contracts.insert (w.accountOrEmpty address).codeHash (w.code (w.accountOrEmpty address).codeHash)⟩) := by
  obtain ⟨response, hresponse, -, hinfo⟩ := hs.before address []
  have hfetch : cache.db.fetchAccountInfo address =
      (.ok (loaded w address), cache.db.recordAccount address (loaded w address)) := by
    simp only [StateRpcDb.fetchAccountInfo, h.states, h.blockNumber, hresponse, hs.code]
    rw [loaded, ← hinfo]
    rfl
  simp only [fetch, hfetch]

theorem fetch_storage (hs : HonestStates keccak states w f f' after last)
    (h : cache.Truthful provider states w last stateRoot) (address : Address) (index : U256) :
    cache.fetch (.storage address index) =
      (.ok (w.storage address index), { cache with db := cache.db.recordStorage address index (w.storage address index) }) := by
  simp only [fetch, StateRpcDb.fetchStorageAt, h.states, h.blockNumber, hs.storage]
  rfl

theorem fetch_blockHash (h : cache.Truthful provider states w last stateRoot) {number : UInt64} {hash : B256} {next : CacheDb}
    (hfetch : cache.fetch (.blockHash number) = (.ok hash, next)) :
    ∃ block, provider number = .ok (some block) ∧ hash = block.hash ∧
      next = { cache with db.toBasicRpcDb.oldestAncestor := min number cache.db.oldestAncestor } := by
  simp only [fetch, StateRpcDb.fetchBlockHash, BasicRpcDb.fetchBlockHash] at hfetch
  rw [← h.provider]
  cases hp : cache.db.provider number with
  | error text =>
      rw [hp] at hfetch
      cases hfetch
  | ok found =>
      rw [hp] at hfetch
      cases found with
      | none => cases hfetch
      | some block =>
          cases hfetch
          exact ⟨block, rfl, rfl, rfl⟩

end CacheDb

theorem StateRpcDb.mem_usedKeys {db : StateRpcDb} {address : Address} {index : U256} :
    index ∈ db.usedKeys address ↔ ∃ slots, db.storage.lookup address = some slots ∧ index ∈ slots := by
  rw [usedKeys]
  cases db.storage.lookup address with
  | none => simp
  | some slots => simp [Finmap.mem_keys]

theorem StateRpcDb.mem_usedKeys_recordStorage {db : StateRpcDb} {address a : Address} {index i value : U256} :
    i ∈ (db.recordStorage address index value).usedKeys a ↔ a = address ∧ i = index ∨ i ∈ db.usedKeys a := by
  rw [mem_usedKeys, mem_usedKeys, recordStorage]
  by_cases ha : a = address
  · subst ha
    simp only [Finmap.lookup_insert, Option.some.injEq, exists_eq_left', Finmap.mem_insert, true_and]
    cases db.storage.lookup a with
    | none => simp [Finmap.notMem_empty]
    | some slots => simp
  · simp only [Finmap.lookup_insert_of_ne _ ha, ha, false_and, false_or]

/-- The database of the host records the questions that it answers, and answers as in the world. -/
theorem CacheDb.records (hs : HonestStates keccak states w f f' after last) :
    Program.Records fetch (Truthful provider states w last stateRoot) (Recorded w) (w.hostAnswer provider) where
  reply q cache r next h hfetch := by
    cases q with
    | basic address =>
        rw [fetch_basic hs h] at hfetch
        cases hfetch
        refine ⟨rfl, ⟨h.provider, h.states, h.blockNumber, h.stateRoot, h.oldest, ?_, ?_⟩, ?_⟩
        · intro a account hl
          by_cases ha : a = address
          · subst ha
            exact (Option.some.inj ((Finmap.lookup_insert _).symm.trans hl)).symm
          · exact h.accounts a account ((Finmap.lookup_insert_of_ne _ ha).symm.trans hl)
        · intro hash code hl
          by_cases hkey : hash = (w.accountOrEmpty address).codeHash
          · subst hkey
            exact ⟨address, Finmap.mem_insert.mpr (.inl rfl), rfl,
              (Option.some.inj ((Finmap.lookup_insert _).symm.trans hl)).symm⟩
          · obtain ⟨a, ha, hash_eq, hcode⟩ := h.contracts hash code ((Finmap.lookup_insert_of_ne _ hkey).symm.trans hl)
            exact ⟨a, Finmap.mem_insert.mpr (.inr ha), hash_eq, hcode⟩
        · exact Finmap.mem_insert.mpr (.inl rfl)
    | codeByHash hash =>
        simp only [fetch] at hfetch
        cases hl : cache.contracts.lookup hash with
        | none =>
            rw [hl] at hfetch
            cases hfetch
        | some code =>
            rw [hl] at hfetch
            cases hfetch
            obtain ⟨address, hmem, hhash, rfl⟩ := h.contracts hash _ hl
            exact ⟨rfl, h, address, hmem, hhash⟩
    | storage address index =>
        rw [fetch_storage hs h] at hfetch
        cases hfetch
        exact ⟨rfl, ⟨h.provider, h.states, h.blockNumber, h.stateRoot, h.oldest, h.accounts, h.contracts⟩,
          StateRpcDb.mem_usedKeys_recordStorage.mpr (.inl ⟨rfl, rfl⟩)⟩
    | blockHash number =>
        obtain ⟨block, hblock, rfl, rfl⟩ := fetch_blockHash h hfetch
        refine ⟨?_, ⟨h.provider, h.states, h.blockNumber, h.stateRoot, ?_, h.accounts, h.contracts⟩, ?_⟩
        · simp only [World.hostAnswer, hblock]
        · exact UInt64.le_trans Std.min_le_right h.oldest
        · exact Std.min_le_left
  kept q cache r next h hfetch q' hq' := by
    have hgrows : (∀ a ∈ cache.db.accounts, a ∈ next.db.accounts) ∧
        (∀ a i, i ∈ cache.db.usedKeys a → i ∈ next.db.usedKeys a) ∧
        next.db.oldestAncestor ≤ cache.db.oldestAncestor := by
      cases q with
      | basic address =>
          rw [fetch_basic hs h] at hfetch
          cases hfetch
          exact ⟨fun a ha => Finmap.mem_insert.mpr (.inr ha), fun a i hi => hi, UInt64.le_refl _⟩
      | codeByHash hash =>
          simp only [fetch] at hfetch
          cases hl : cache.contracts.lookup hash with
          | none =>
              rw [hl] at hfetch
              cases hfetch
          | some code =>
              rw [hl] at hfetch
              cases hfetch
              exact ⟨fun a ha => ha, fun a i hi => hi, UInt64.le_refl _⟩
      | storage address index =>
          rw [fetch_storage hs h] at hfetch
          cases hfetch
          exact ⟨fun a ha => ha, fun a i hi => StateRpcDb.mem_usedKeys_recordStorage.mpr (.inr hi), UInt64.le_refl _⟩
      | blockHash number =>
          obtain ⟨block, -, rfl, rfl⟩ := fetch_blockHash h hfetch
          exact ⟨fun a ha => ha, fun a i hi => hi, Std.min_le_right⟩
    cases q' with
    | basic address => exact hgrows.1 address hq'
    | codeByHash hash =>
        obtain ⟨a, ha, hhash⟩ := hq'
        exact ⟨a, hgrows.1 a ha, hhash⟩
    | storage address index => exact hgrows.2.1 address index hq'
    | blockHash number => exact UInt64.le_trans hgrows.2.2 hq'

end Records

section Collect
variable {l : List (Address × AccountProof)}

theorem mem_foldl_insert {m : IteratedMap Address AccountProof} {entry : Σ _ : Address, AccountProof}
    (h : entry ∈ (l.foldl (fun m entry => m.insert entry.1 entry.2) m).entries) :
    (entry.1, entry.2) ∈ l ∨ entry ∈ m.entries := by
  induction l generalizing m with
  | nil => exact .inr h
  | cons first l ih =>
      rcases ih h with hmem | hmem
      · exact .inl (List.mem_cons_of_mem _ hmem)
      · rw [AList.entries_insert, List.mem_cons] at hmem
        rcases hmem with rfl | hmem
        · exact .inl List.mem_cons_self
        · exact .inr (List.kerase_sublist _ _ |>.mem hmem)

theorem mem_collect {entry : Σ _ : Address, AccountProof} (h : entry ∈ (collect l).entries) : (entry.1, entry.2) ∈ l := by
  rcases mem_foldl_insert h with hmem | hmem
  · exact hmem
  · cases hmem

theorem mem_of_lookup_collect {a : Address} {proof : AccountProof} (h : (collect l).lookup a = some proof) :
    (a, proof) ∈ l := mem_collect (AList.mem_lookup_iff.mp h)

theorem mem_foldl_insert_keys {m : IteratedMap Address AccountProof} {a : Address} :
    a ∈ l.foldl (fun m entry => m.insert entry.1 entry.2) m ↔ a ∈ l.map Prod.fst ∨ a ∈ m := by
  induction l generalizing m with
  | nil => simp
  | cons first l ih =>
      rw [List.foldl_cons, ih, AList.mem_insert, List.map_cons, List.mem_cons]
      tauto

theorem mem_collect_keys {a : Address} : a ∈ collect l ↔ a ∈ l.map Prod.fst := by
  rw [collect, mem_foldl_insert_keys, or_iff_left (AList.notMem_empty a)]

end Collect

section State
variable {keccak : Bytes → B256} {provider : Provider} {states : StateProvider} {w : World} {f f' : EthereumState}
  {after : B256 → MptNode} {last : UInt64} {stateRoot : B256} {cache : CacheDb} {modified : Address → Finset U256}

/-- What an honest provider gives for one account. -/
theorem StateRpcDb.fetchProofs_honest (hs : HonestStates keccak states w f f' after last)
    (h : cache.Truthful provider states w last stateRoot) (address : Address) :
    ∃ proofs, cache.db.fetchProofs modified address = .ok proofs ∧
      proofs.1.Shows keccak f.stateTrie (f.storageTrie (keccak address.bytes)) address (cache.db.keys modified address) ∧
      proofs.2.Shows keccak f'.stateTrie (after (keccak address.bytes)) address (modifiedKeys modified address) := by
  obtain ⟨before, hbefore, hshows, -⟩ := hs.before address (cache.db.keys modified address)
  obtain ⟨fini, hfini, hshows'⟩ := hs.after address (modifiedKeys modified address)
  refine ⟨(before, fini), ?_, hshows, hshows'⟩
  simp only [fetchProofs, h.states, h.blockNumber, hbefore, hfini]
  rfl

/-- From what is recorded the host builds a state that stands in for the whole one. -/
theorem StateRpcDb.state_standsIn (hs : HonestStates keccak states w f f' after last)
    (h : cache.Truthful provider states w last (f.stateRoot keccak)) (iteration : Iteration)
    (hp : ∀ proofs : IteratedMap Address AccountProof, (∀ a, a ∈ proofs ↔ a ∈ cache.db.requested) →
      ProvableStates keccak f f' after (cache.db.keys modified) (modifiedKeys modified) proofs) :
    ∃ s enough proofs, (∀ a, a ∈ proofs ↔ a ∈ cache.db.requested) ∧
      (∀ fuel, enough ≤ fuel → (cache.db.state modified keccak iteration fuel).Returns s) ∧
      StandsIn keccak f f' after (cache.db.keys modified) (modifiedKeys modified) proofs s := by
  have hempty : EMPTY_ROOT ≠ B256.ZERO := by decide
  obtain ⟨responses, hresponses⟩ := mapM_exists (l := iteration.addresses cache.db.requested) fun address _ =>
    (StateRpcDb.fetchProofs_honest hs h address).imp fun _ h => h.1
  -- every response is the one for some address
  have hof : ∀ p ∈ responses, ∃ a ∈ cache.db.requested,
      p.1.Shows keccak f.stateTrie (f.storageTrie (keccak a.bytes)) a (cache.db.keys modified a) ∧
      p.2.Shows keccak f'.stateTrie (after (keccak a.bytes)) a (modifiedKeys modified a) := by
    intro p hmem
    obtain ⟨a, ha, hfetch⟩ := (mapM_ok_inv hresponses).2.1 p hmem
    obtain ⟨p', hfetch', hshows⟩ := StateRpcDb.fetchProofs_honest hs h a
    obtain rfl := Except.ok.inj (hfetch.symm.trans hfetch')
    exact ⟨a, (iteration.mem_addresses _ _).mp ha, hshows⟩
  -- and for every address there is one
  have hfor : ∀ a ∈ cache.db.requested, ∃ p ∈ responses, p.1.address = a ∧ p.2.address = a := by
    intro a ha
    obtain ⟨p, hmem, hfetch⟩ := (mapM_ok_inv hresponses).2.2 a ((iteration.mem_addresses _ _).mpr ha)
    obtain ⟨p', hfetch', hshows, hshows'⟩ := StateRpcDb.fetchProofs_honest hs h a
    obtain rfl := Except.ok.inj (hfetch.symm.trans hfetch')
    exact ⟨p, hmem, hshows.address_eq, hshows'.address_eq⟩
  let before := collect (responses.map fun p => (p.1.address, p.1.toAccountProof))
  let fini := collect (responses.map fun p => (p.2.address, p.2.toAccountProof))
  have hperm := iteration.perm_proofs before
  have hkeys : ∀ a, a ∈ iteration.proofs before ↔ a ∈ cache.db.requested := by
    intro a
    rw [(AList.mem_of_perm hperm : a ∈ iteration.proofs before ↔ a ∈ before), mem_collect_keys, List.map_map, List.mem_map]
    constructor
    · rintro ⟨p, hmem, rfl⟩
      obtain ⟨a, ha, hshows, -⟩ := hof p hmem
      rw [Function.comp_apply, hshows.address_eq]
      exact ha
    · intro ha
      obtain ⟨p, hmem, haddress, -⟩ := hfor a ha
      exact ⟨p, hmem, haddress⟩
  have hh : HonestProofs keccak f f' after (cache.db.keys modified) (modifiedKeys modified) (iteration.proofs before)
      fini.toFinmap := by
    refine ⟨?_, ?_⟩
    · intro entry hentry
      obtain ⟨p, hmem, heq⟩ := List.mem_map.mp (mem_collect (hperm.mem_iff.mp hentry))
      obtain ⟨a, -, hshows, -⟩ := hof p hmem
      obtain ⟨haddress, hproof⟩ := Prod.mk.inj heq
      rw [← hproof, ← haddress, hshows.address_eq]
      exact hshows.honest hempty
    · intro entry hentry
      have ha := (hkeys entry.1).mp (AList.mem_keys.mpr (List.mem_map_of_mem hentry))
      obtain ⟨p, hmem, -, haddress⟩ := hfor entry.1 ha
      obtain ⟨proof, hlookup⟩ : ∃ proof, fini.lookup entry.1 = some proof := by
        refine Option.isSome_iff_exists.mp (AList.lookup_isSome.mpr ?_)
        rw [mem_collect_keys, List.map_map]
        exact haddress ▸ List.mem_map_of_mem hmem
      obtain ⟨p', hmem', heq⟩ := List.mem_map.mp (mem_of_lookup_collect hlookup)
      obtain ⟨a, -, -, hshows⟩ := hof p' hmem'
      obtain ⟨haddress', hproof⟩ := Prod.mk.inj heq
      refine ⟨proof, hlookup, ?_⟩
      rw [← hproof, ← haddress', hshows.address_eq]
      exact hshows.honest hempty
  obtain ⟨s, enough, hreturns, hstands⟩ := transition_standsIn hh (hp _ hkeys)
  refine ⟨s, enough, iteration.proofs before, hkeys, ?_, hstands⟩
  intro fuel hfuel
  refine returns_bind.mpr ⟨responses, returns_except.mpr hresponses, returns_adapt.mpr ?_⟩
  rw [h.stateRoot]
  exact hreturns fuel hfuel

end State

section Keys

theorem mem_btreeSet {s : Finset U256} {n : U256} : n ∈ btreeSet s ↔ n ∈ s := by
  simp only [btreeSet, List.mem_map, Finset.mem_sort, Finset.mem_image]
  constructor
  · rintro ⟨_, ⟨m, hm, rfl⟩, rfl⟩
    rwa [BitVec.ofNat_toNat, BitVec.setWidth_eq]
  · intro hn
    exact ⟨n.toNat, ⟨n, hn, rfl⟩, by rw [BitVec.ofNat_toNat, BitVec.setWidth_eq]⟩

theorem StateRpcDb.mem_keys {db : StateRpcDb} {modified : Address → Finset U256} {address : Address} {index : U256}
    (h : index ∈ db.usedKeys address) : B256.ofU256 index ∈ db.keys modified address :=
  List.mem_map_of_mem (mem_btreeSet.mpr (Finset.mem_union_left _ h))

end Keys

section Codes
variable {keccak : Bytes → B256} {iteration : Iteration} {db : StateRpcDb}

theorem StateRpcDb.of_mem_bytecodes {code : Bytes} (h : code ∈ db.bytecodes keccak iteration) :
    ∃ address info, db.accounts.lookup address = some (info, code) := by
  obtain ⟨hash, -, hfind⟩ := List.mem_filterMap.mp h
  exact (iteration.mem_codes _ _).mp (List.mem_reverse.mp (List.mem_of_find?_eq_some hfind))

/-- There is a code for the hash of every code that was loaded. -/
theorem StateRpcDb.exists_bytecode {address : Address} {info : AccountInfo} {code : Bytes}
    (h : db.accounts.lookup address = some (info, code)) :
    ∃ code' ∈ db.bytecodes keccak iteration, keccak code' = keccak code := by
  have hmem : code ∈ iteration.codes db.accounts := (iteration.mem_codes _ _).mpr ⟨address, info, h⟩
  obtain ⟨code', hfind⟩ : ∃ code', (iteration.codes db.accounts).reverse.find? (fun c => keccak c = keccak code) = some code' := by
    refine Option.isSome_iff_exists.mp (List.find?_isSome.mpr ⟨code, List.mem_reverse.mpr hmem, ?_⟩)
    exact decide_eq_true rfl
  have hhash := List.find?_some hfind
  refine ⟨code', List.mem_filterMap.mpr ⟨keccak code, ?_, hfind⟩, of_decide_eq_true hhash⟩
  exact List.mem_mergeSort.mpr (List.mem_dedup.mpr (List.mem_map_of_mem hmem))

end Codes

/-- A reply of the host and one of the guest: where there is no account, the host has an empty one. -/
def World.SameReply (w : World) : (q : Query) → q.Reply → q.Reply → Prop
  | .basic address, (r : Option AccountInfo), (r' : Option AccountInfo) =>
      r = r' ∨ w.account address = none ∧ r = some .empty ∧ r' = none
  | .codeByHash _, r, r' => r = r'
  | .storage _ _, r, r' => r = r'
  | .blockHash _, r, r' => r = r'

section Replay
variable {keccak : Bytes → B256} {codec : AccountCodec} {decodeSlot : Bytes → Option U256} {hashSlow : Header → B256}
  {provider : Provider} {chain : UInt64 → RpcHeader} {states : StateProvider} {w : World} {f f' s : EthereumState}
  {after : B256 → MptNode} {last : UInt64} {stateRoot : B256} {cache : CacheDb} {modified : Address → Finset U256}
  {iteration : Iteration} {proofs : IteratedMap Address AccountProof} {db : TrieDB}

/-- A database over the state that the host has built answers every question that was recorded. -/
theorem StandsIn.answer (hs : HonestStates keccak states w f f' after last) (hf : f.Holds keccak codec decodeSlot w)
    (ht : cache.Truthful provider states w last stateRoot)
    (hstands : StandsIn keccak f f' after (cache.db.keys modified) (StateRpcDb.modifiedKeys modified) proofs s)
    (hproofs : ∀ a, a ∈ proofs ↔ a ∈ cache.db.requested) (hinner : db.inner = s)
    (hcodes : db.bytecodeByHash = (cache.db.bytecodes keccak iteration).foldl
      (fun codes code => codes.insert (keccak code) code) ∅)
    (hhashes : ∀ n ≤ last, cache.db.oldestAncestor ≤ n → ∀ block, provider n = .ok (some block) →
      db.blockHashes.lookup n = some block.hash) {q : Query} (hq : cache.Recorded w q)
    (hlast : ∀ n, q = .blockHash n → n ≤ last) {r : q.Reply} (hr : w.hostAnswer provider q = some r) :
    ∃ r', db.answer keccak codec decodeSlot q = some r' ∧ w.SameReply q r r' := by
  have hentry {a : Address} (ha : a ∈ cache.db.requested) : ∃ proof, (⟨a, proof⟩ : Σ _ : Address, AccountProof) ∈ proofs.entries := by
    obtain ⟨proof, hproof⟩ := Option.isSome_iff_exists.mp (AList.lookup_isSome.mpr ((hproofs a).mpr ha))
    exact ⟨proof, AList.mem_lookup_iff.mp hproof⟩
  cases q with
  | basic address =>
      obtain ⟨proof, hmem⟩ := hentry (Finset.mem_union_left _ (Finmap.mem_keys.mpr hq))
      obtain ⟨leaf, hleaf, hw⟩ := hf.account address
      have hget : db.inner.stateTrie.getRlp codec.decode (keccak address.bytes).bytes = .ok leaf := by
        rw [hinner, MptNode.getRlp, hstands.get_account hmem]
        exact hleaf
      refine ⟨_, TrieDB.basicRef_of_getRlp hget, ?_⟩
      rw [← hw]
      obtain rfl : some (w.accountOrEmpty address) = r := Option.some.inj hr
      unfold World.accountOrEmpty
      cases haccount : w.account address with
      | some info => exact .inl rfl
      | none => exact .inr ⟨haccount, rfl, rfl⟩
  | codeByHash hash =>
      obtain ⟨address, haddress, hhash⟩ := hq
      obtain ⟨account, hl⟩ := Finmap.mem_iff.mp haddress
      obtain rfl := ht.accounts address account hl
      obtain ⟨code', hmem, heq⟩ := @StateRpcDb.exists_bytecode keccak iteration _ _ _ _ hl
      rw [hs.codeHash, hhash] at heq
      obtain ⟨code, hcode⟩ := @exists_lookup_entered _ _ _ keccak _ ∅ _ (.inl ⟨code', hmem, heq⟩)
      refine ⟨code, (congrArg (Finmap.lookup hash) hcodes).trans hcode, ?_⟩
      obtain rfl : w.code hash = r := Option.some.inj hr
      rcases lookup_entered hcode with ⟨hmem, rfl⟩ | hnone
      · obtain ⟨address', info, hl'⟩ := StateRpcDb.of_mem_bytecodes hmem
        obtain ⟨-, rfl⟩ := Prod.mk.inj (ht.accounts _ _ hl')
        rw [hs.codeHash]
        rfl
      · cases hnone
  | storage address index =>
      obtain ⟨slots, hl, -⟩ := StateRpcDb.mem_usedKeys.mp hq
      obtain ⟨proof, hmem⟩ := hentry (Finset.mem_union_right _ (Finmap.mem_keys.mpr (Finmap.mem_of_lookup_eq_some hl)))
      obtain ⟨trie, htrie, hserves⟩ := hstands.storage _ hmem
      obtain ⟨value, hvalue, hw⟩ := hf.storage address index
      have hanswer : trie.get (keccak (toBeBytes index)).bytes =
          (f.storageTrie (keccak address.bytes)).get (keccak (toBeBytes index)).bytes :=
        hserves.answers _ (List.mem_map_of_mem (@StateRpcDb.mem_keys _ modified _ _ hq))
      have hget := getRlp_of_get (fun x hx => hanswer.trans hx) hvalue
      refine ⟨value.getD 0, (TrieDB.storageRef_of_lookup (hinner ▸ htrie)).mpr ⟨value, hget, rfl⟩, ?_⟩
      obtain rfl : w.storage address index = r := Option.some.inj hr
      exact hw
  | blockHash number =>
      rw [World.hostAnswer] at hr
      split at hr
      · next block hblock =>
          refine ⟨block.hash, hhashes number (hlast number rfl) hq block hblock, ?_⟩
          exact (Option.some.inj hr).symm
      · cases hr

end Replay

end RethProcessor
