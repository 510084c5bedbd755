import RethProcessor.HonestHost
import RethProcessor.HeaderChain

/-! The database of the host over an execution witness. It answers from the witness alone, and the
guest accepts what the host makes of it up to the headers and to the storages that are missing. -/
namespace RethProcessor
open Calls Programs

/-- What is read of an execution witness: the nodes, the codes and the encoded headers. -/
structure ExecutionWitness where
  state : List Bytes
  codes : List Bytes
  headers : List Bytes

/-- The order in which the keys of a hash map are visited. -/
structure KeyOrder (κ ν : Type) where
  keys : HashMap κ ν → List κ
  nodup : ∀ m, (keys m).Nodup
  mem_keys : ∀ m k, k ∈ keys m ↔ k ∈ m

def KeyOrder.values {κ ν : Type} [DecidableEq κ] (order : KeyOrder κ ν) (m : HashMap κ ν) : List ν :=
  (order.keys m).filterMap m.lookup

/-- `ExecutionWitnessRpcDb`. -/
structure WitnessRpcDb where
  state : EthereumState
  codes : HashMap B256 Bytes
  ancestorHeaders : HashMap UInt64 Header

namespace WitnessRpcDb

section Keccak
variable (keccak : Bytes → B256) (codec : AccountCodec) (decodeSlot : Bytes → Option U256) (hashSlow : Header → B256)
  (decodeHeader : Bytes → Option Header)

/-- A header of the witness, which has to be decoded. -/
def readHeader (encoded : Bytes) : Except RpcFailure Header :=
  match decodeHeader encoded with
  | some header => .ok header
  | none => .error .panic

def new (getWitness : UInt64 → Except String ExecutionWitness) (fuel : Nat) (blockNumber : UInt64) (stateRoot : B256) :
    Call RpcFailure WitnessRpcDb := do
  let witness ← .of ((getWitness (blockNumber + 1)).mapError .transport)
  let state ← ExceptT.adapt (fun _ => .panic) (buildValidatedTries keccak codec fuel witness.state stateRoot)
  let codes := witness.codes.foldl (fun codes code => codes.insert (keccak code) code) ∅
  let headers ← .of (witness.headers.mapM (readHeader decodeHeader))
  pure ⟨state, codes, headers.foldl (fun headers header => headers.insert header.number header) ∅⟩

def basicRef (db : WitnessRpcDb) (address : Address) : Except RpcFailure (Option AccountInfo) :=
  match db.state.stateTrie.get (keccak address.bytes).bytes with
  | .error (.err e) => .error (.trieWitness e)
  | .error .panic => .error .panic
  | .ok none => .ok none
  | .ok (some bytes) =>
      match codec.decode bytes with
      | none => .error .rlp
      | some account => .ok (some account.info)

def codeByHashRef (db : WitnessRpcDb) (hash : B256) : Except RpcFailure Bytes :=
  match db.codes.lookup hash with
  | none => .error (.codeNotFound hash)
  | some code => .ok code

def blockHashRef (db : WitnessRpcDb) (number : UInt64) : Except RpcFailure B256 :=
  match db.ancestorHeaders.lookup number with
  | none => .error (.headerNotFound number)
  | some header => .ok (hashSlow header)

def answer (db : WitnessRpcDb) : (q : Query) → Except RpcFailure q.Reply
  | .basic address => db.basicRef keccak codec address
  | .codeByHash hash => db.codeByHashRef hash
  | .storage address index =>
      match storageRef keccak decodeSlot db.state address index with
      | .ok value => .ok value
      | .error .rlp => .error .rlp
      | .error .panic => .error .panic
  | .blockHash number => db.blockHashRef hashSlow number

/-- `ancestor_headers`: the headers of the witness, by falling numbers. -/
def sortedHeaders (order : KeyOrder UInt64 Header) (db : WitnessRpcDb) : List Header :=
  (order.values db.ancestorHeaders).mergeSort fun a b => decide (b.number ≤ a.number)

/-- `RpcDb` for `ExecutionWitnessRpcDb`. -/
def rpcDb (getWitness : UInt64 → Except String ExecutionWitness) (codeOrder : KeyOrder B256 Bytes)
    (headerOrder : KeyOrder UInt64 Header) (fuel : Nat) : RpcDb WitnessRpcDb where
  new := new keccak codec decodeHeader getWitness fuel
  fetch q db := (db.answer keccak codec decodeSlot hashSlow q, db)
  state _ db := pure db.state
  bytecodes db := codeOrder.values db.codes
  ancestorHeaders db := .ok (db.sortedHeaders headerOrder)

end Keccak

/-- What holds of a database that was made of a witness: its state is the one that is built of the
nodes, and its codes and headers stand under their own hashes and numbers. -/
structure Opened (keccak : Bytes → B256) (codec : AccountCodec) (fuel : Nat) (witness : ExecutionWitness)
    (stateRoot : B256) (db : WitnessRpcDb) : Prop where
  state : (buildValidatedTries keccak codec fuel witness.state stateRoot).Returns db.state
  codes : ∀ hash code, db.codes.lookup hash = some code → keccak code = hash
  headers : ∀ number header, db.ancestorHeaders.lookup number = some header → header.number = number

end WitnessRpcDb

section Values
variable {κ ν : Type} [DecidableEq κ] (order : KeyOrder κ ν) {m : HashMap κ ν}

theorem KeyOrder.mem_values {v : ν} : v ∈ order.values m ↔ ∃ k, m.lookup k = some v := by
  rw [KeyOrder.values, List.mem_filterMap]
  constructor
  · rintro ⟨k, -, hl⟩
    exact ⟨k, hl⟩
  · rintro ⟨k, hl⟩
    exact ⟨k, (order.mem_keys m k).mpr (Finmap.mem_of_lookup_eq_some hl), hl⟩

/-- Values that know their keys stand in the order of these. -/
theorem KeyOrder.map_values {key : ν → κ} (h : ∀ k v, m.lookup k = some v → key v = k) :
    (order.values m).map key = order.keys m := by
  have hall : ∀ k ∈ order.keys m, (m.lookup k).map key = some k := by
    intro k hk
    obtain ⟨v, hv⟩ := Finmap.mem_iff.mp ((order.mem_keys m k).mp hk)
    rw [hv, Option.map_some, h k v hv]
  rw [KeyOrder.values, List.map_filterMap, List.filterMap_congr hall, List.filterMap_some]

/-- The map is there again when such values are entered. -/
theorem KeyOrder.lookup_enter_values {key : ν → κ} (h : ∀ k v, m.lookup k = some v → key v = k) (k : κ) :
    ((order.values m).foldl (fun found v => found.insert (key v) v) (∅ : HashMap κ ν)).lookup k = m.lookup k := by
  have hsome {v : ν} (hl : ((order.values m).foldl (fun found v => found.insert (key v) v) (∅ : HashMap κ ν)).lookup k =
      some v) : m.lookup k = some v := by
    rcases lookup_entered hl with ⟨hmem, rfl⟩ | hnone
    · obtain ⟨k', hk'⟩ := order.mem_values.mp hmem
      rwa [h k' v hk']
    · cases hnone
  cases hl : m.lookup k with
  | some v =>
      obtain ⟨v', hl'⟩ := @exists_lookup_entered _ _ _ key (order.values m) ∅ k
        (.inl ⟨v, order.mem_values.mpr ⟨k, hl⟩, h k v hl⟩)
      rw [hl', ← hsome hl', hl]
  | none =>
      refine Option.eq_none_iff_forall_ne_some.mpr fun v hv => ?_
      rw [hsome hv] at hl
      cases hl

end Values

section Walk
variable {blockHashes found : HashMap UInt64 B256}

/-- The walk goes through when each header is the parent that the one before it names. -/
theorem checkHeaders_ok_iff_forall {sealedHeaders : List SealedHeader} :
    (∃ found, checkHeaders blockHashes sealedHeaders = .ok found) ↔ ∀ pair ∈ tupleWindows sealedHeaders,
      pair.2.header.number = pair.1.header.number - 1 ∧ pair.2.hash = pair.1.header.parentHash := by
  induction sealedHeaders generalizing blockHashes with
  | nil => exact iff_of_true ⟨blockHashes, rfl⟩ (List.forall_mem_nil _)
  | cons child rest ih =>
      cases rest with
      | nil => exact iff_of_true ⟨blockHashes, rfl⟩ (List.forall_mem_nil _)
      | cons parent rest =>
          have hwindows : tupleWindows (child :: parent :: rest) = (child, parent) :: tupleWindows (parent :: rest) := rfl
          rw [hwindows, List.forall_mem_cons, ← @ih (blockHashes.insert parent.header.number child.header.parentHash)]
          constructor
          · rintro ⟨found, hfound⟩
            obtain ⟨hnumber, hhash, hfound⟩ := checkHeaders_cons_inv hfound
            exact ⟨⟨hnumber, hhash⟩, found, hfound⟩
          · rintro ⟨⟨hnumber, hhash⟩, found, hfound⟩
            exact ⟨found, (checkHeaders_cons hnumber hhash blockHashes rest).trans hfound⟩

end Walk

namespace WitnessRpcDb
section Opened
variable {keccak : Bytes → B256} {codec : AccountCodec} {decodeSlot : Bytes → Option U256} {hashSlow : Header → B256}
  {decodeHeader : Bytes → Option Header} {getWitness : UInt64 → Except String ExecutionWitness} {fuel : Nat}
  {stateRoot : B256} {db : WitnessRpcDb} {witness : ExecutionWitness} {codeOrder : KeyOrder B256 Bytes}
  {headerOrder : KeyOrder UInt64 Header}

theorem opened_of_new {blockNumber : UInt64} (hwitness : getWitness (blockNumber + 1) = .ok witness)
    (h : (new keccak codec decodeHeader getWitness fuel blockNumber stateRoot).Returns db) :
    Opened keccak codec fuel witness stateRoot db := by
  obtain ⟨witness', hfound, h⟩ := h.bind
  rw [returns_of, hwitness] at hfound
  obtain rfl : witness = witness' := Except.ok.inj hfound
  obtain ⟨state, hstate, h⟩ := h.bind
  obtain ⟨headers, hheaders, h⟩ := h.bind
  rw [returns_pure] at h
  subst h
  refine ⟨returns_adapt.mp hstate, ?_, ?_⟩
  · intro hash code hl
    rcases lookup_entered hl with ⟨-, heq⟩ | hl
    · exact heq
    · cases hl
  · intro number header hl
    rcases lookup_entered hl with ⟨-, heq⟩ | hl
    · exact heq
    · cases hl

namespace Opened

theorem mem_sortedHeaders {header : Header} : header ∈ db.sortedHeaders headerOrder ↔
    ∃ number, db.ancestorHeaders.lookup number = some header := by
  rw [sortedHeaders, List.mem_mergeSort, KeyOrder.mem_values]

/-- No number comes twice among the headers. -/
theorem nodup_sortedHeaders (h : Opened keccak codec fuel witness stateRoot db) :
    ((db.sortedHeaders headerOrder).map Header.number).Nodup := by
  have hperm : ((db.sortedHeaders headerOrder).map Header.number).Perm (headerOrder.keys db.ancestorHeaders) := by
    rw [← headerOrder.map_values h.headers]
    exact (List.mergeSort_perm _ _).map _
  exact hperm.nodup_iff.mpr (headerOrder.nodup _)

/-- The walk over them finds, under each number, the hash of the header that the database has there. -/
theorem lookup_checkHeaders (h : Opened keccak codec fuel witness stateRoot db) {header : Header}
    {found : HashMap UInt64 B256} (hfound : checkHeaders ∅
      ((header :: db.sortedHeaders headerOrder).map (SealedHeader.sealSlow hashSlow)) = .ok found) (number : UInt64) :
    found.lookup number = (db.ancestorHeaders.lookup number).map hashSlow := by
  have hnodup : (((header :: db.sortedHeaders headerOrder).map (SealedHeader.sealSlow hashSlow)).tail.map
      fun sealed => sealed.header.number).Nodup := by
    rw [List.map_cons, List.tail_cons, List.map_map]
    exact h.nodup_sortedHeaders
  refine Option.ext fun hash => (lookup_checkHeaders_of_nodup hnodup hfound number hash).trans ?_
  rw [List.map_cons, List.tail_cons, Option.map_eq_some_iff]
  constructor
  · rintro (⟨sealed, hmem, hnumber, hhash⟩ | ⟨-, hnone⟩)
    · obtain ⟨ancestor, hancestor, rfl⟩ := List.mem_map.mp hmem
      obtain ⟨n, hn⟩ := mem_sortedHeaders.mp hancestor
      rw [SealedHeader.sealSlow, h.headers n ancestor hn] at hnumber
      exact ⟨ancestor, hnumber ▸ hn, hhash⟩
    · cases hnone
  · rintro ⟨ancestor, hl, hhash⟩
    exact .inl ⟨_, List.mem_map_of_mem (mem_sortedHeaders.mpr ⟨number, hl⟩), h.headers number ancestor hl, hhash⟩

end Opened

section Answers
variable {trieDb : TrieDB}

theorem basicRef_iff (hinner : trieDb.inner = db.state) {address : Address} {account : Option AccountInfo} :
    trieDb.basicRef keccak codec address = some account ↔ db.basicRef keccak codec address = .ok account := by
  rw [TrieDB.basicRef, basicRef, hinner, MptNode.getRlp]
  cases db.state.stateTrie.get (keccak address.bytes).bytes with
  | error e =>
      cases e with
      | err e => simp
      | panic => simp
  | ok found =>
      cases found with
      | none => simp
      | some bytes =>
          cases hdec : codec.decode bytes with
          | none => simp [hdec]
          | some account => simp [hdec, TrieAccount.info]

theorem codeByHashRef_iff (hcodes : ∀ hash, trieDb.bytecodeByHash.lookup hash = db.codes.lookup hash) {hash : B256}
    {code : Bytes} : trieDb.codeByHashRef hash = some code ↔ db.codeByHashRef hash = .ok code := by
  rw [TrieDB.codeByHashRef, hcodes, codeByHashRef]
  cases db.codes.lookup hash with
  | none => simp
  | some code => simp

theorem blockHashRef_iff
    (hhashes : ∀ number, trieDb.blockHashes.lookup number = (db.ancestorHeaders.lookup number).map hashSlow)
    {number : UInt64} {hash : B256} :
    trieDb.blockHashRef number = some hash ↔ db.blockHashRef hashSlow number = .ok hash := by
  rw [TrieDB.blockHashRef, hhashes, blockHashRef]
  cases db.ancestorHeaders.lookup number with
  | none => simp
  | some header => simp

theorem answer_storage_iff {address : Address} {index value : U256} :
    db.answer keccak codec decodeSlot hashSlow (.storage address index) = .ok value ↔
      storageRef keccak decodeSlot db.state address index = .ok value := by
  rw [answer]
  cases storageRef keccak decodeSlot db.state address index with
  | ok found =>
      constructor
      · intro h
        exact congrArg Except.ok (Except.ok.inj h)
      · intro h
        exact congrArg Except.ok (Except.ok.inj h)
  | error e =>
      cases e with
      | rlp => exact iff_of_false error_ne_ok error_ne_ok
      | panic => exact iff_of_false error_ne_ok error_ne_ok

theorem storageRef_iff (hinner : trieDb.inner = db.state) {address : Address} {index value : U256} :
    trieDb.storageRef keccak decodeSlot address index = some value ↔
      db.answer keccak codec decodeSlot hashSlow (.storage address index) = .ok value ∧
        ∃ trie, db.state.storageTries.lookup (keccak address.bytes) = some trie := by
  rw [answer_storage_iff]
  cases hl : db.state.storageTries.lookup (keccak address.bytes) with
  | none =>
      rw [TrieDB.storageRef, hinner, hl]
      apply iff_of_false
      · intro h
        cases h
      · rintro ⟨-, trie, htrie⟩
        cases htrie
  | some trie =>
      rw [storageRef_of_lookup hl, TrieDB.storageRef_of_lookup (hinner ▸ hl)]
      exact (and_iff_left ⟨trie, rfl⟩).symm

/-- Over the same state, codes and hashes the guest answers what the host does, but for the storage
of accounts that have no storage trie. -/
theorem answer_iff (hinner : trieDb.inner = db.state)
    (hcodes : ∀ hash, trieDb.bytecodeByHash.lookup hash = db.codes.lookup hash)
    (hhashes : ∀ number, trieDb.blockHashes.lookup number = (db.ancestorHeaders.lookup number).map hashSlow)
    (q : Query) (r : q.Reply) : trieDb.answer keccak codec decodeSlot q = some r ↔
      db.answer keccak codec decodeSlot hashSlow q = .ok r ∧ ∀ address index, q = .storage address index →
        ∃ trie, db.state.storageTries.lookup (keccak address.bytes) = some trie := by
  cases q with
  | basic address => exact (basicRef_iff hinner).trans (and_iff_left (fun a i h => nomatch h)).symm
  | codeByHash hash => exact (codeByHashRef_iff hcodes).trans (and_iff_left (fun a i h => nomatch h)).symm
  | blockHash number => exact (blockHashRef_iff hhashes).trans (and_iff_left (fun a i h => nomatch h)).symm
  | storage address index =>
      refine (storageRef_iff hinner).trans (and_congr_right fun _ => ?_)
      constructor
      · intro htrie a i heq
        cases heq
        exact htrie
      · intro hall
        exact hall address index rfl

end Answers

end Opened

section Accepts
variable {Body Sender Output E Other : Type} {reth : Reth Body Sender Output E Other} {keccak : Bytes → B256}
  {codec : AccountCodec} {decodeSlot : Bytes → Option U256} {hashSlow : Header → B256}
  {decodeHeader : Bytes → Option Header} {getWitness : UInt64 → Except String ExecutionWitness} {fuel : Nat}
  {codeOrder : KeyOrder B256 Bytes} {headerOrder : KeyOrder UInt64 Header} {witness : ExecutionWitness}
  {executor : Host.HostExecutor} {getFullBlock : UInt64 → Except String (Option (Block Body))} {blockNumber : UInt64}
  {input : ClientExecutorInput Body} {storageTries : IteratedMap B256 MptNode} {chainId : UInt64}
  {previousBlock : Block Body} {senders : List Sender} {output : Output} {db recorded : WitnessRpcDb}
  {state : EthereumState}

/-- So does the database that the guest opens from what the host has made of this one. -/
theorem Opened.witnessDb_answer_iff {stateRoot : B256} {trieDb : TrieDB} (h : Opened keccak codec fuel witness stateRoot db)
    (hstate : db.state = input.parentState) (hancestors : db.sortedHeaders headerOrder = input.ancestorHeaders)
    (hbytecodes : input.bytecodes = codeOrder.values db.codes)
    (htries : storageTries.toFinmap = input.parentState.storageTries)
    (hdatabase : witnessDb keccak codec input storageTries (input.sealedHeaders hashSlow) = .ok trieDb)
    (q : Query) (r : q.Reply) : trieDb.answer keccak codec decodeSlot q = some r ↔
      (db.answer keccak codec decodeSlot hashSlow q).toOption = some r ∧ ∀ address index,
        q = .storage address index → ∃ trie, input.parentState.storageTries.lookup (keccak address.bytes) = some trie := by
  obtain ⟨-, hheaders, hinner, hcodes⟩ := (witnessDb_ok_iff htries).mp hdatabase
  rw [toOption_eq_some, ← hstate]
  refine answer_iff (hinner.trans hstate.symm) ?_ ?_ q r
  · intro hash
    rw [hcodes, hbytecodes]
    exact codeOrder.lookup_enter_values h.codes hash
  · rw [ClientExecutorInput.sealedHeaders, ← hancestors] at hheaders
    exact h.lookup_checkHeaders hheaders

/-- What the host leaves to the witness: that its headers go down from the block one by one, the first
of them with the state root that was built, and that it has the root of every storage that is asked for. -/
structure Suffices (reth : Reth Body Sender Output E Other) (keccak : Bytes → B256) (codec : AccountCodec)
    (hashSlow : Header → B256) (chainSpec : ChainSpec) (witness : ExecutionWitness) (input : ClientExecutorInput Body)
    (asked : List Query) : Prop where
  parent : ∃ parent ∈ input.ancestorHeaders.head?, parent.stateRoot = input.parentState.stateRoot keccak
  headers : ∀ pair ∈ tupleWindows (input.sealedHeaders hashSlow),
    pair.2.header.number = pair.1.header.number - 1 ∧ pair.2.hash = pair.1.header.parentHash
  valid : ∀ pair ∈ tupleWindows (input.sealedHeaders hashSlow), validatePair reth chainSpec pair = .ok ()
  storages : ∀ address index, .storage address index ∈ asked → ∃ account,
    input.parentState.stateTrie.getRlp codec.decode (keccak address.bytes).bytes = .ok (some account) ∧
      ∃ encoded ∈ witness.state, keccak encoded = account.storageRoot

/-- The guest accepts what the host makes of an execution witness exactly when the witness suffices. -/
theorem executes_accepted_iff {files : Genesis.Files} (hwitness : getWitness blockNumber = .ok witness)
    (h : executor.Executes reth keccak codec hashSlow getFullBlock
      (rpcDb keccak codec decodeSlot hashSlow decodeHeader getWitness codeOrder headerOrder fuel) blockNumber input chainId
      previousBlock senders output db recorded state)
    (hspec : input.genesis.chainSpec files = .ok executor.chainSpec)
    (hbeneficiary : input.customBeneficiary = executor.customBeneficiary)
    (htracking : input.opcodeTracking = false) (htries : storageTries.toFinmap = input.parentState.storageTries) :
    verifyBlock reth keccak codec decodeSlot hashSlow files input storageTries =
        .ok (hashSlow input.currentBlock.header, input.currentBlock.header.stateRoot, input.parentState.stateRoot keccak) ↔
      Suffices reth keccak codec hashSlow executor.chainSpec witness input
        ((reth.evmConfig.basicBlockExecutor executor.chainSpec executor.customBeneficiary chainId
          ⟨input.currentBlock, senders⟩).asked fun q => (db.answer keccak codec decodeSlot hashSlow q).toOption) := by
  obtain ⟨hsame, hserved⟩ := Program.serve_stateless h.executed
  subst hsame
  have hopened : Opened keccak codec fuel witness previousBlock.header.stateRoot recorded :=
    opened_of_new ((UInt64.sub_add_cancel blockNumber 1).symm ▸ hwitness) h.opened
  have hstate : recorded.state = input.parentState := returns_pure.mp h.parentState
  have hancestors : recorded.sortedHeaders headerOrder = input.ancestorHeaders := Except.ok.inj h.ancestorHeaders
  have hbuilt := hstate ▸ hopened.state
  have hless {trieDb : TrieDB} (hdatabase : witnessDb keccak codec input storageTries (input.sealedHeaders hashSlow) =
      .ok trieDb) (q : Query) (r : q.Reply) (hr : trieDb.answer keccak codec decodeSlot q = some r) :=
    (hopened.witnessDb_answer_iff hstate hancestors h.bytecodes htries hdatabase q r).mp hr
  constructor
  · intro hverified
    obtain ⟨-, chainSpec, hspec', chainId', trieDb, senders', output', state', hx⟩ := verifyBlock_ok_iff.mp hverified
    obtain rfl : executor.chainSpec = chainSpec := Except.ok.inj (hspec.symm.trans hspec')
    obtain rfl : chainId = chainId' := Except.ok.inj (h.chain.symm.trans hx.chain)
    obtain rfl : senders = senders' := Option.some.inj (h.recovered.symm.trans hx.recovered)
    obtain ⟨⟨parent, hparent, haccepted⟩, hheaders, -⟩ := (witnessDb_ok_iff htries).mp hx.database
    refine ⟨⟨parent, hparent, haccepted.stateRoot⟩, checkHeaders_ok_iff_forall.mp ⟨_, hheaders⟩, hx.validHeaders, ?_⟩
    intro address index hasked
    have hguest := hx.executed
    rw [hbeneficiary, htracking] at hguest
    obtain ⟨r, hr⟩ := Program.run_asked (fun q r hr => (hless hx.database q r hr).1) hguest _ hasked
    obtain ⟨trie, htrie⟩ := (hless hx.database _ r hr).2 address index rfl
    obtain ⟨-, account, hget, -, hencoded⟩ := (buildValidatedTries_storage hbuilt _).1 trie htrie
    exact ⟨account, hget, hencoded⟩
  · rintro ⟨⟨parent, hparent, hroot⟩, hheaders, hvalid, hstorages⟩
    obtain ⟨blockHashes, hwalk⟩ := (@checkHeaders_ok_iff_forall ∅ _).mpr hheaders
    let trieDb : TrieDB :=
      ⟨input.parentState, blockHashes, input.bytecodes.foldl (fun codes code => codes.insert (keccak code) code) ∅⟩
    have hdatabase : witnessDb keccak codec input storageTries (input.sealedHeaders hashSlow) = .ok trieDb :=
      (witnessDb_ok_iff htries).mpr
        ⟨⟨parent, hparent, hroot, (buildValidatedTries_accepted hbuilt).storageRoots⟩, hwalk, rfl, rfl⟩
    have hguest : (reth.evmConfig.basicBlockExecutor executor.chainSpec executor.customBeneficiary chainId
        ⟨input.currentBlock, senders⟩).run (trieDb.answer keccak codec decodeSlot) = some (.ok output) := by
      refine (Program.run_iff_of_le (fun q r hr => (hless hdatabase q r hr).1) hserved).mpr ?_
      intro q hq
      obtain ⟨r, hr⟩ := Program.run_asked (fun q r hr => hr) hserved q hq
      refine ⟨r, (hopened.witnessDb_answer_iff hstate hancestors h.bytecodes htries hdatabase q r).mpr ⟨hr, ?_⟩⟩
      rintro address index rfl
      obtain ⟨account, hget, hencoded⟩ := hstorages address index hq
      exact (buildValidatedTries_storage hbuilt _).2 account hget hencoded
    refine verifyBlock_ok_iff.mpr ⟨rfl, executor.chainSpec, hspec, chainId, trieDb, senders, output, state, h.chain,
      hdatabase, h.recovered, h.validBlock, hvalid, ?_, h.postExecution, h.updated, h.stateRoot⟩
    rw [hbeneficiary, htracking]
    exact hguest

end Accepts
end WitnessRpcDb

section Sample

/-- The keys of a map in their order. -/
def sortedKeys {κ : Type} (order : LinearOrder κ) (ν : Type) : KeyOrder κ ν where
  keys m := @Finset.sort _ m.keys order.le order.toDecidableLE _ _ _
  nodup m := Finset.sort_nodup _ _
  mem_keys m k := by rw [Finset.mem_sort, Finmap.mem_keys]

abbrev numberOrder : LinearOrder UInt64 := LinearOrder.lift' UInt64.toNat fun _ _ => UInt64.toNat_inj.mp

abbrev hashOrder : LinearOrder B256 := LinearOrder.lift' (fun h => h.bytes.map UInt8.toNat) fun _ _ h =>
  B256.ext (List.map_injective_iff.mpr (fun _ _ => UInt8.toNat_inj.mp) h)

/-- Two blocks over one state. -/
def ownerBlocks (n : UInt64) : Header :=
  if n = 0 then { (emptyBlock 0 B256.ZERO firstHash).rebuild with stateRoot := ownerDigest }
  else { (emptyBlock 1 firstHash secondHash).rebuild with stateRoot := ownerDigest }

/-- A block that reads a slot. -/
def readReth : Reth Unit Unit HashedPostState String String :=
  { raiseReth with evmConfig := sameExecution (.ask (.storage Address.ZERO 0) fun _ => .done (.ok ⟨∅, ∅⟩)) }

def ownerState : EthereumState := ⟨ownerLeaf, AList.toFinmap (AList.insert zeroAddressHash slotLeaf ∅)⟩

/-- A witness of the state, with the storage of its account. -/
def ownerWitness : ExecutionWitness := ⟨[ownerEncoding, slotLeafEncoding], [], [[0]]⟩

def ownerDb : WitnessRpcDb := ⟨ownerState, ∅, (∅ : HashMap UInt64 Header).insert 0 (ownerBlocks 0)⟩

def ownerInput : ClientExecutorInput Unit where
  currentBlock := ⟨ownerBlocks 1, ()⟩
  ancestorHeaders := [ownerBlocks 0]
  parentState := ownerState
  bytecodes := []
  genesis := .mainnet
  customBeneficiary := none
  opcodeTracking := false

theorem executes_ownerWitness : (⟨⟨1⟩, none⟩ : Host.HostExecutor).Executes readReth ownerKeccak rlpCodec threeHashes
    (fun n => .ok (some ⟨ownerBlocks n, ()⟩))
    (WitnessRpcDb.rpcDb ownerKeccak rlpCodec decodeUintRlp threeHashes (fun _ => some (ownerBlocks 0))
      (fun _ => .ok ownerWitness) (sortedKeys hashOrder Bytes) (sortedKeys numberOrder Header) 1)
    1 ownerInput 1 ⟨ownerBlocks 0, ()⟩ [] ⟨∅, ∅⟩ ownerDb ownerDb ownerState where
  chain := rfl
  currentBlock := rfl
  previous := rfl
  opened := by
    refine returns_bind.mpr ⟨ownerWitness, returns_of.mpr rfl, ?_⟩
    refine returns_bind.mpr ⟨ownerState, returns_adapt.mpr returns_ownerLeaf_slotLeaf, ?_⟩
    exact returns_bind.mpr ⟨[ownerBlocks 0], returns_of.mpr rfl, returns_pure.mpr rfl⟩
  recovered := rfl
  validBlock := rfl
  executed := by
    have hslot : ownerDb.answer ownerKeccak rlpCodec decodeUintRlp threeHashes (.storage Address.ZERO 0) =
        .ok (1 : U256) := by
      have hl : ownerState.storageTries.lookup (ownerKeccak Address.ZERO.bytes) = some slotLeaf := rfl
      exact WitnessRpcDb.answer_storage_iff.mpr ((storageRef_of_lookup hl).mpr ⟨_, getRlp_slotLeaf, rfl⟩)
    simp only [readReth, sameExecution, Program.serve, WitnessRpcDb.rpcDb, hslot]
  postExecution := rfl
  parentState := rfl
  updated := rfl
  stateRoot := hash_ownerLeaf
  ancestorHeaders := by
    have hkeys : ownerDb.ancestorHeaders.keys = {0} := rfl
    have hvalues : (sortedKeys numberOrder Header).values ownerDb.ancestorHeaders = [ownerBlocks 0] := by
      simp only [KeyOrder.values, sortedKeys, hkeys, Finset.sort_singleton]
      rfl
    simp only [WitnessRpcDb.rpcDb, WitnessRpcDb.sortedHeaders, hvalues, List.mergeSort_singleton, ownerInput]
  sameHash := rfl
  bytecodes := by
    have hkeys : ownerDb.codes.keys = ∅ := rfl
    simp only [WitnessRpcDb.rpcDb, KeyOrder.values, sortedKeys, hkeys, Finset.sort_empty]
    rfl

theorem accepted_ownerWitness : verifyBlock readReth ownerKeccak rlpCodec decodeUintRlp threeHashes noFiles ownerInput
    (AList.insert zeroAddressHash slotLeaf ∅) =
      .ok (threeHashes (ownerBlocks 1), (ownerBlocks 1).stateRoot, ownerState.stateRoot ownerKeccak) := by
  refine (WitnessRpcDb.executes_accepted_iff rfl executes_ownerWitness rfl rfl rfl rfl).mpr ?_
  refine ⟨⟨ownerBlocks 0, rfl, hash_ownerLeaf.symm⟩, ?_, ?_, ?_⟩
  · intro pair hpair
    rw [List.mem_singleton.mp hpair]
    exact ⟨rfl, rfl⟩
  · intro pair hpair
    rw [List.mem_singleton.mp hpair]
    rfl
  · intro address index hasked
    have hasks : Program.Asks (fun q => q = .storage Address.ZERO 0)
        (readReth.evmConfig.basicBlockExecutor ⟨1⟩ none 1 ⟨⟨ownerBlocks 1, ()⟩, []⟩) := .ask rfl fun r => .done _
    cases hasks.asked _ hasked
    exact ⟨owner, getRlp_ownerLeaf, slotLeafEncoding, List.mem_cons_of_mem _ List.mem_cons_self, keccak_slotLeafEncoding⟩

end Sample

end RethProcessor
