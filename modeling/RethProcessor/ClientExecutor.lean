import RethProcessor.HeaderChecks
import RethProcessor.Programs

/-! The guest. It executes the block over the database of its witness, checks what comes of it and
commits to the hash of the header; what it takes from reth is a parameter. -/
namespace RethProcessor
open Calls Programs

/-- What the execution of a block asks of its database. -/
inductive Query where
  | basic (address : Address)
  | codeByHash (hash : B256)
  | storage (address : Address) (index : U256)
  | blockHash (number : UInt64)

def Query.Reply : Query → Type
  | basic _ => Option AccountInfo
  | codeByHash _ => Bytes
  | storage _ _ => U256
  | blockHash _ => B256

/-- A block with the senders of its transactions. -/
structure RecoveredBlock (Body Sender : Type) where
  block : Block Body
  senders : List Sender

/-- The execution of blocks, as the code takes it from reth: the executor of reth, which is given the
chain id, and the steps that the executor with opcode tracking is made of. All of it reaches the state
through the database alone. -/
structure EvmConfig (Body Sender Output E : Type) where
  EvmEnv : Type
  Context : Type
  Strategy : Type
  Transaction : Type
  basicBlockExecutor : ChainSpec → Option Address → UInt64 → RecoveredBlock Body Sender →
    Program Query Query.Reply (Except E Output)
  evmEnv : ChainSpec → Header → Except E EvmEnv
  setBeneficiary : Address → EvmEnv → EvmEnv
  contextForBlock : ChainSpec → RecoveredBlock Body Sender → Except E Context
  createExecutor : ChainSpec → EvmEnv → Context → Strategy
  transactionsRecovered : RecoveredBlock Body Sender → List Transaction
  applyPreExecutionChanges : Strategy → ExceptT E (Program Query Query.Reply) Strategy
  executeTransaction : Strategy → Transaction → ExceptT E (Program Query Query.Reply) Strategy
  applyPostExecutionChanges : Strategy → ExceptT E (Program Query Query.Reply) Output

/-- What the code takes from reth: the recovery of senders, the consensus checks, the execution of
blocks, and what is read of its output. -/
structure Reth (Body Sender Output E Other : Type) where
  recover : Block Body → Option (List Sender)
  namedChain : UInt64 → Option NamedChain
  headerChecks : ChainSpec → List (SealedHeader → Except (ConsensusError Other) Unit)
  bodyAgainstHeader : Body → Header → Except (ConsensusError Other) Unit
  headerAgainstParent : ChainSpec → SealedHeader → SealedHeader → Except (ConsensusError Other) Unit
  evmConfig : EvmConfig Body Sender Output E
  postExecution : RecoveredBlock Body Sender → ChainSpec → Output → Bool → Except (ConsensusError Other) Unit
  hashStateSlow : Output → HashedPostState
  modifiedKeys : Output → Address → Finset U256
  logsBloom : Output → BitVec 2048

namespace Genesis

/-- `Genesis::try_from`. -/
def tryFrom (value : UInt64) : Except String Genesis :=
  if value = 1 then .ok mainnet
  else if value = 10 then .ok opMainnet
  else if value = 59144 then .ok linea
  else if value = 11155111 then .ok sepolia
  else if value = 2345 then .ok GOAT
  else if value = 48816 then .ok goatTestnet
  else .error s!"The chain {value} is not supported"

/-- `u64::try_from`. -/
def chainId : Genesis → Except String UInt64
  | mainnet => .ok 1
  | opMainnet => .ok 10
  | linea => .ok 59144
  | sepolia => .ok 11155111
  | GOAT => .ok 2345
  | goatTestnet => .ok 48816
  | custom _ => .error "Custom genesis is not supported"

/-- The texts of the genesis files, and what becomes of such a text. -/
structure Files where
  linea : String
  GOAT : String
  goatTestnet : String
  fromJson : String → Except String ChainSpec

/-- `ChainSpec::try_from`. -/
def chainSpec (files : Files) : Genesis → Except String ChainSpec
  | mainnet => .ok ⟨1⟩
  | sepolia => .ok ⟨11155111⟩
  | opMainnet => .error "Only converting Genesis::OpMainnet to OpChainSpec is supported"
  | linea => files.fromJson files.linea
  | GOAT => files.fromJson files.GOAT
  | goatTestnet => files.fromJson files.goatTestnet
  | custom json => files.fromJson json

end Genesis

/-- `is_goat_testnet`. -/
def isGoatTestnet (chainId : UInt64) : Bool := chainId = 48816

/-- The errors that the execution of the guest returns; its other failures are panics. -/
inductive ExecuteError (E Other : Type) where
  | signatureRecoveryFailed
  | blockExecutionError (e : E)
  | postExecutionError (e : ConsensusError Other)
  | mismatchedStateRoot

inductive ExecuteFailure (E Other : Type) where
  | err (e : ExecuteError E Other)
  | panic

/-- `expect` and `unwrap`. -/
def expect {ε E Other α : Type} (result : Except ε α) : Except (ExecuteFailure E Other) α :=
  result.mapError fun _ => .panic

/-- `tuple_windows`. -/
def tupleWindows {α : Type} (l : List α) : List (α × α) := l.zip l.tail

/-- The header that is derived of the one of the block and the state root that was computed. -/
def deriveHeader (current : Header) (stateRoot : B256) : Header where
  parentHash := current.parentHash
  ommersHash := current.ommersHash
  beneficiary := current.beneficiary
  stateRoot := stateRoot
  transactionsRoot := current.transactionsRoot
  receiptsRoot := current.receiptsRoot
  logsBloom := current.logsBloom
  difficulty := current.difficulty
  number := current.number
  gasLimit := current.gasLimit
  gasUsed := current.gasUsed
  timestamp := current.timestamp
  extraData := current.extraData
  mixHash := current.mixHash
  nonce := current.nonce
  baseFeePerGas := current.baseFeePerGas
  withdrawalsRoot := current.withdrawalsRoot
  blobGasUsed := current.blobGasUsed
  excessBlobGas := current.excessBlobGas
  parentBeaconBlockRoot := current.parentBeaconBlockRoot
  requestsHash := current.requestsHash

section Execute
variable {Body Sender Output E Other : Type} (reth : Reth Body Sender Output E Other)

/-- `BlockValidator::validate_block` of `EthPrimitives`. -/
def validateBlock (hashSlow : Header → B256) (chainSpec : ChainSpec) (block : RecoveredBlock Body Sender) :
    Except (ConsensusError Other) Unit := do
  validateHeader reth.namedChain (reth.headerChecks chainSpec) (.sealSlow hashSlow block.block.header) chainSpec
  reth.bodyAgainstHeader block.block.body block.block.header

/-- The checks of one pair of adjacent headers. -/
def validatePair (chainSpec : ChainSpec) (pair : SealedHeader × SealedHeader) : Except (ExecuteFailure E Other) Unit := do
  expect (validateHeader reth.namedChain (reth.headerChecks chainSpec) pair.2 chainSpec)
  expect (reth.headerAgainstParent chainSpec pair.1 pair.2)

variable (keccak : Bytes → B256) (codec : AccountCodec) (decodeSlot : Bytes → Option U256) (hashSlow : Header → B256)

def TrieDB.answer (db : TrieDB) : (q : Query) → Option q.Reply
  | .basic address => db.basicRef keccak codec address
  | .codeByHash hash => db.codeByHashRef hash
  | .storage address index => db.storageRef keccak decodeSlot address index
  | .blockHash number => db.blockHashRef number

section Tracking
variable (evmConfig : EvmConfig Body Sender Output E)

/-- `CustomEvmFactory::create_evm`, for what it does to the environment. -/
def EvmConfig.createEvm (customBeneficiary : Option Address) (input : evmConfig.EvmEnv) : evmConfig.EvmEnv :=
  match customBeneficiary with
  | some customBeneficiary => evmConfig.setBeneficiary customBeneficiary input
  | none => input

/-- `create_evm_with_inspector`, which sets the beneficiary before it creates the EVM. -/
def EvmConfig.createEvmWithInspector (customBeneficiary : Option Address) (input : evmConfig.EvmEnv) : evmConfig.EvmEnv :=
  match customBeneficiary with
  | some customBeneficiary => evmConfig.createEvm (some customBeneficiary) (evmConfig.setBeneficiary customBeneficiary input)
  | none => evmConfig.createEvm none input

/-- `OpCodesTrackingBlockExecutor`, which is not given the chain id. -/
def EvmConfig.opCodesTrackingBlockExecutor (chainSpec : ChainSpec) (customBeneficiary : Option Address)
    (block : RecoveredBlock Body Sender) : ExceptT E (Program Query Query.Reply) Output := do
  let evmEnv ← .mk (pure (evmConfig.evmEnv chainSpec block.block.header))
  let evm := evmConfig.createEvmWithInspector customBeneficiary evmEnv
  let context ← .mk (pure (evmConfig.contextForBlock chainSpec block))
  let strategy ← evmConfig.applyPreExecutionChanges (evmConfig.createExecutor chainSpec evm context)
  let strategy ← (evmConfig.transactionsRecovered block).foldlM evmConfig.executeTransaction strategy
  evmConfig.applyPostExecutionChanges strategy

end Tracking

structure ClientExecutor where
  chainSpec : ChainSpec
  customBeneficiary : Option Address

namespace ClientExecutor

/-- `BlockExecutor`, for the setting of the opcode tracking. -/
def blockExecutor (executor : ClientExecutor) (opcodeTracking : Bool) (chainId : UInt64) (block : RecoveredBlock Body Sender) :
    Program Query Query.Reply (Except E Output) :=
  if opcodeTracking then
    (reth.evmConfig.opCodesTrackingBlockExecutor executor.chainSpec executor.customBeneficiary block).run
  else reth.evmConfig.basicBlockExecutor executor.chainSpec executor.customBeneficiary chainId block

/-- The execution of a block over the database; where the database panics, so does the execution. -/
def executeBlock (executor : ClientExecutor) (opcodeTracking : Bool) (chainId : UInt64) (db : TrieDB)
    (block : RecoveredBlock Body Sender) : Except (ExecuteFailure E Other) Output :=
  match (executor.blockExecutor reth opcodeTracking chainId block).run (db.answer keccak codec decodeSlot) with
  | none => .error .panic
  | some (.error e) => .error (.err (.blockExecutionError e))
  | some (.ok output) => .ok output

/-- The block with the senders of its transactions. -/
def recoverBlock (block : Block Body) : Except (ExecuteFailure E Other) (RecoveredBlock Body Sender) :=
  match reth.recover block with
  | some senders => .ok ⟨block, senders⟩
  | none => .error (.err .signatureRecoveryFailed)

/-- The state root after the update of the parent state, which has to be the one of the header. -/
def computeStateRoot (input : ClientExecutorInput Body) (output : Output) : Except (ExecuteFailure E Other) B256 :=
  match input.parentState.update keccak codec (reth.hashStateSlow output) with
  | none => .error .panic
  | some state =>
      if state.stateRoot keccak ≠ input.currentBlock.header.stateRoot then .error (.err .mismatchedStateRoot)
      else .ok (state.stateRoot keccak)

/-- `ClientExecutor::execute`, for the order in which the storage tries of the state are visited. -/
def execute (executor : ClientExecutor) (input : ClientExecutorInput Body) (storageTries : IteratedMap B256 MptNode) :
    Except (ExecuteFailure E Other) (Header × B256) := do
  let chainId ← expect input.genesis.chainId
  let sealedHeaders := input.sealedHeaders hashSlow
  let db ← expect (witnessDb keccak codec input storageTries sealedHeaders)
  let block ← recoverBlock reth input.currentBlock
  expect (validateBlock reth hashSlow executor.chainSpec block)
  (tupleWindows sealedHeaders).forM (validatePair reth executor.chainSpec)
  let output ← executor.executeBlock reth keccak codec decodeSlot input.opcodeTracking chainId db block
  (reth.postExecution block executor.chainSpec output (isGoatTestnet chainId)).mapError fun e =>
    .err (.postExecutionError e)
  let stateRoot ← computeStateRoot reth keccak codec input output
  .ok (deriveHeader input.currentBlock.header stateRoot, input.parentState.stateRoot keccak)

/-- What an execution that returns has gone through. -/
structure Executes (executor : ClientExecutor) (input : ClientExecutorInput Body) (storageTries : IteratedMap B256 MptNode)
    (chainId : UInt64) (db : TrieDB) (senders : List Sender) (output : Output) (state : EthereumState) : Prop where
  chain : input.genesis.chainId = .ok chainId
  database : witnessDb keccak codec input storageTries (input.sealedHeaders hashSlow) = .ok db
  recovered : reth.recover input.currentBlock = some senders
  validBlock : validateBlock reth hashSlow executor.chainSpec ⟨input.currentBlock, senders⟩ = .ok ()
  validHeaders : ∀ pair ∈ tupleWindows (input.sealedHeaders hashSlow), validatePair reth executor.chainSpec pair = .ok ()
  executed : (executor.blockExecutor reth input.opcodeTracking chainId ⟨input.currentBlock, senders⟩).run
    (db.answer keccak codec decodeSlot) = some (.ok output)
  postExecution : reth.postExecution ⟨input.currentBlock, senders⟩ executor.chainSpec output (isGoatTestnet chainId) = .ok ()
  updated : input.parentState.update keccak codec (reth.hashStateSlow output) = some state
  stateRoot : state.stateRoot keccak = input.currentBlock.header.stateRoot

end ClientExecutor

/-- `verify_block`, behind the decoding of its input: the hash of the block, its state root and the one before. -/
def verifyBlock (files : Genesis.Files) (input : ClientExecutorInput Body) (storageTries : IteratedMap B256 MptNode) :
    Except (ExecuteFailure E Other) (B256 × B256 × B256) := do
  let chainSpec ← expect (input.genesis.chainSpec files)
  let (header, prevStateRoot) ← expect
    (ClientExecutor.execute reth keccak codec decodeSlot hashSlow ⟨chainSpec, input.customBeneficiary⟩ input storageTries)
  .ok (hashSlow header, header.stateRoot, prevStateRoot)

end Execute

theorem expect_ok_iff {ε E Other α : Type} {result : Except ε α} {a : α} :
    (expect result : Except (ExecuteFailure E Other) α) = .ok a ↔ result = .ok a := mapError_ok_iff

/-- With the state root it has already, the derived header is the one of the block. -/
theorem deriveHeader_self (current : Header) : deriveHeader current current.stateRoot = current := rfl

section Returns
variable {Body Sender Output E Other : Type} {reth : Reth Body Sender Output E Other} {keccak : Bytes → B256}
  {codec : AccountCodec} {decodeSlot : Bytes → Option U256} {hashSlow : Header → B256}
  {input : ClientExecutorInput Body} {storageTries : IteratedMap B256 MptNode}

namespace ClientExecutor
variable {executor : ClientExecutor}

theorem executeBlock_ok_iff {opcodeTracking : Bool} {chainId : UInt64} {db : TrieDB} {block : RecoveredBlock Body Sender}
    {output : Output} :
    executor.executeBlock reth keccak codec decodeSlot opcodeTracking chainId db block = .ok output ↔
      (executor.blockExecutor reth opcodeTracking chainId block).run (db.answer keccak codec decodeSlot) =
        some (.ok output) := by
  rw [executeBlock]
  cases (executor.blockExecutor reth opcodeTracking chainId block).run (db.answer keccak codec decodeSlot) with
  | none => simp
  | some result =>
      cases result with
      | error e => simp
      | ok o => simp

theorem recoverBlock_ok_iff {block : Block Body} {recovered : RecoveredBlock Body Sender} :
    recoverBlock reth block = .ok recovered ↔ ∃ senders, reth.recover block = some senders ∧ ⟨block, senders⟩ = recovered := by
  rw [recoverBlock]
  cases reth.recover block with
  | none => simp
  | some senders => simp

theorem computeStateRoot_ok_iff {output : Output} {stateRoot : B256} :
    computeStateRoot reth keccak codec input output = .ok stateRoot ↔
      ∃ state, input.parentState.update keccak codec (reth.hashStateSlow output) = some state ∧
        state.stateRoot keccak = input.currentBlock.header.stateRoot ∧ input.currentBlock.header.stateRoot = stateRoot := by
  rw [computeStateRoot]
  cases input.parentState.update keccak codec (reth.hashStateSlow output) with
  | none => simp
  | some state =>
      by_cases hroot : state.stateRoot keccak = input.currentBlock.header.stateRoot
      · simp [hroot]
      · simp [hroot]

/-- The execution returns the header of the block, and the state root before it, when it has gone
through all its steps. -/
theorem execute_ok_iff {header : Header} {prevStateRoot : B256} :
    executor.execute reth keccak codec decodeSlot hashSlow input storageTries = .ok (header, prevStateRoot) ↔
      header = input.currentBlock.header ∧ prevStateRoot = input.parentState.stateRoot keccak ∧
      ∃ chainId db senders output state, executor.Executes reth keccak codec decodeSlot hashSlow input storageTries
        chainId db senders output state := by
  constructor
  · intro h
    obtain ⟨chainId, hchain, h⟩ := bind_ok_inv h
    obtain ⟨db, hdb, h⟩ := bind_ok_inv h
    obtain ⟨block, hrecovered, h⟩ := bind_ok_inv h
    obtain ⟨u, hblock, h⟩ := bind_ok_inv h
    obtain ⟨u, hheaders, h⟩ := bind_ok_inv h
    obtain ⟨output, houtput, h⟩ := bind_ok_inv h
    obtain ⟨u, hpost, h⟩ := bind_ok_inv h
    obtain ⟨stateRoot, hroot, h⟩ := bind_ok_inv h
    obtain ⟨senders, hsenders, rfl⟩ := recoverBlock_ok_iff.mp hrecovered
    obtain ⟨state, hstate, hsame, rfl⟩ := computeStateRoot_ok_iff.mp hroot
    rw [Except.ok.injEq, Prod.mk.injEq, deriveHeader_self] at h
    exact ⟨h.1.symm, h.2.symm, chainId, db, senders, output, state, expect_ok_iff.mp hchain, expect_ok_iff.mp hdb,
      hsenders, expect_ok_iff.mp hblock, forM_ok_iff.mp hheaders, executeBlock_ok_iff.mp houtput,
      mapError_ok_iff.mp hpost, hstate, hsame⟩
  · rintro ⟨rfl, rfl, chainId, db, senders, output, state, h⟩
    have hroot := (@computeStateRoot_ok_iff _ _ _ _ _ reth keccak codec input output _).mpr ⟨state, h.updated, h.stateRoot, rfl⟩
    simp only [execute, expect_ok_iff.mpr h.chain, expect_ok_iff.mpr h.database,
      recoverBlock_ok_iff.mpr ⟨senders, h.recovered, rfl⟩, expect_ok_iff.mpr h.validBlock, forM_ok_iff.mpr h.validHeaders,
      executeBlock_ok_iff.mpr h.executed, h.postExecution, Except.mapError, hroot, bind, Except.bind, deriveHeader_self]

end ClientExecutor

theorem verifyBlock_ok_iff {files : Genesis.Files} {result : B256 × B256 × B256} :
    verifyBlock reth keccak codec decodeSlot hashSlow files input storageTries = .ok result ↔
      result = (hashSlow input.currentBlock.header, input.currentBlock.header.stateRoot, input.parentState.stateRoot keccak) ∧
      ∃ chainSpec, input.genesis.chainSpec files = .ok chainSpec ∧ ∃ chainId db senders output state,
        ClientExecutor.Executes reth keccak codec decodeSlot hashSlow ⟨chainSpec, input.customBeneficiary⟩ input
          storageTries chainId db senders output state := by
  constructor
  · intro h
    obtain ⟨chainSpec, hspec, h⟩ := bind_ok_inv h
    obtain ⟨⟨header, prevStateRoot⟩, hexecute, h⟩ := bind_ok_inv h
    obtain ⟨rfl, rfl, hexecutes⟩ := ClientExecutor.execute_ok_iff.mp (expect_ok_iff.mp hexecute)
    exact ⟨(Except.ok.inj h).symm, chainSpec, expect_ok_iff.mp hspec, hexecutes⟩
  · rintro ⟨rfl, chainSpec, hspec, hexecutes⟩
    rw [verifyBlock, expect_ok_iff.mpr hspec]
    change (expect _ >>= _) = _
    rw [ClientExecutor.execute_ok_iff.mpr ⟨rfl, rfl, hexecutes⟩]
    rfl

end Returns

section Networks

/-- The two conversions between chain ids and the networks that are known undo each other. -/
theorem Genesis.tryFrom_ok_iff {value : UInt64} {genesis : Genesis} :
    Genesis.tryFrom value = .ok genesis ↔ genesis.chainId = .ok value := by
  constructor
  · intro h
    unfold Genesis.tryFrom at h
    split_ifs at h with hid hid hid hid hid hid <;> rw [← Except.ok.inj h, hid] <;> rfl
  · intro h
    cases genesis with
    | custom json => cases h
    | mainnet | opMainnet | sepolia | linea | GOAT | goatTestnet =>
        cases h
        rfl

end Networks

end RethProcessor
