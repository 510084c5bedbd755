import RethProcessor.RpcDb
import RethProcessor.InputCache

/-! The host. It executes a block over a database that records what it was asked for, and makes the
input of the guest of what is recorded. -/
namespace RethProcessor.Host
open Calls Programs

/-- The errors of the host; where the database fails, so does the execution over it. -/
inductive HostFailure (E Other : Type) where
  | transport (text : String)
  | failedToRecoverSenders
  | postExecutionCheck (e : ConsensusError Other)
  | executionFailed (e : E ⊕ RpcFailure)
  | expectedBlock (number : UInt64)
  | headerMismatch (found expected : B256)
  | stateRootMismatch (found expected : B256)
  | rpcDbError (e : RpcFailure)
  | panic

structure HostExecutor where
  chainSpec : ChainSpec
  customBeneficiary : Option Address

namespace HostExecutor
variable {Body Sender Output E Other σ : Type}

section Execute
variable (reth : Reth Body Sender Output E Other) (keccak : Bytes → B256) (codec : AccountCodec) (hashSlow : Header → B256)

/-- A block from the provider; also where the previous one is missing the error names the current one. -/
def fetchBlock (getFullBlock : UInt64 → Except String (Option (Block Body))) (number blockNumber : UInt64) :
    Except (HostFailure E Other) (Block Body) :=
  match getFullBlock number with
  | .error text => .error (.transport text)
  | .ok none => .error (.expectedBlock blockNumber)
  | .ok (some block) => .ok block

def recoverBlock (block : Block Body) : Except (HostFailure E Other) (RecoveredBlock Body Sender) :=
  match reth.recover block with
  | some senders => .ok ⟨block, senders⟩
  | none => .error .failedToRecoverSenders

/-- The execution of the block over the database, and what the database has recorded of it. -/
def executeBlock (executor : HostExecutor) (rpcDb : RpcDb σ) (chainId : UInt64) (db : σ)
    (block : RecoveredBlock Body Sender) : Except (HostFailure E Other) (Output × σ) :=
  match (reth.evmConfig.basicBlockExecutor executor.chainSpec executor.customBeneficiary chainId block).serve rpcDb.fetch db with
  | (.error .panic, _) => .error .panic
  | (.error e, _) => .error (.executionFailed (.inr e))
  | (.ok (.error e), _) => .error (.executionFailed (.inl e))
  | (.ok (.ok output), recorded) => .ok (output, recorded)

/-- The state root after the block, which has to be the one of its header. -/
def checkStateRoot (state : EthereumState) (output : Output) (header : Header) : Except (HostFailure E Other) B256 :=
  match state.update keccak codec (reth.hashStateSlow output) with
  | none => .error .panic
  | some mutated =>
      if mutated.stateRoot keccak ≠ header.stateRoot then
        .error (.stateRootMismatch (mutated.stateRoot keccak) header.stateRoot)
      else .ok (mutated.stateRoot keccak)

/-- `HostExecutor::execute`, over a provider of blocks and the database of one feature. -/
def execute (executor : HostExecutor) (getFullBlock : UInt64 → Except String (Option (Block Body))) (rpcDb : RpcDb σ)
    (blockNumber : UInt64) (genesis : Genesis) (customBeneficiary : Option Address) (opcodeTracking : Bool) :
    Call (HostFailure E Other) (ClientExecutorInput Body) := do
  let chainId ← .of (genesis.chainId.mapError fun _ => .panic)
  let currentBlock ← .of (fetchBlock getFullBlock blockNumber blockNumber)
  let previousBlock ← .of (fetchBlock getFullBlock (blockNumber - 1) blockNumber)
  let db ← ExceptT.adapt .rpcDbError (rpcDb.new (blockNumber - 1) previousBlock.header.stateRoot)
  let block ← .of (recoverBlock reth currentBlock)
  .of ((validateBlock reth hashSlow executor.chainSpec block).mapError .postExecutionCheck)
  .of ((validateHeader reth.namedChain (reth.headerChecks executor.chainSpec) (.sealSlow hashSlow currentBlock.header)
    executor.chainSpec).mapError .postExecutionCheck)
  let (output, recorded) ← .of (executor.executeBlock reth rpcDb chainId db block)
  .of ((reth.postExecution block executor.chainSpec output (isGoatTestnet chainId)).mapError .postExecutionCheck)
  let state ← ExceptT.adapt .rpcDbError (rpcDb.state (reth.modifiedKeys output) recorded)
  let stateRoot ← .of (checkStateRoot reth keccak codec state output currentBlock.header)
  let header := { deriveHeader currentBlock.header stateRoot with logsBloom := reth.logsBloom output }
  let ancestorHeaders ← .of ((rpcDb.ancestorHeaders recorded).mapError .rpcDbError)
  if hashSlow header ≠ hashSlow currentBlock.header then
    throw (.headerMismatch (hashSlow header) (hashSlow currentBlock.header))
  else
    pure ⟨currentBlock, ancestorHeaders, state, rpcDb.bytecodes recorded, genesis, customBeneficiary, opcodeTracking⟩

/-- What an execution that returns has gone through. -/
structure Executes (executor : HostExecutor) (getFullBlock : UInt64 → Except String (Option (Block Body)))
    (rpcDb : RpcDb σ) (blockNumber : UInt64) (input : ClientExecutorInput Body) (chainId : UInt64)
    (previousBlock : Block Body) (senders : List Sender) (output : Output) (db recorded : σ) (state : EthereumState) :
    Prop where
  chain : input.genesis.chainId = .ok chainId
  currentBlock : getFullBlock blockNumber = .ok (some input.currentBlock)
  previous : getFullBlock (blockNumber - 1) = .ok (some previousBlock)
  opened : (rpcDb.new (blockNumber - 1) previousBlock.header.stateRoot).Returns db
  recovered : reth.recover input.currentBlock = some senders
  validBlock : validateBlock reth hashSlow executor.chainSpec ⟨input.currentBlock, senders⟩ = .ok ()
  executed : (reth.evmConfig.basicBlockExecutor executor.chainSpec executor.customBeneficiary chainId ⟨input.currentBlock, senders⟩).serve
    rpcDb.fetch db = (.ok (.ok output), recorded)
  postExecution : reth.postExecution ⟨input.currentBlock, senders⟩ executor.chainSpec output (isGoatTestnet chainId) = .ok ()
  parentState : (rpcDb.state (reth.modifiedKeys output) recorded).Returns input.parentState
  updated : input.parentState.update keccak codec (reth.hashStateSlow output) = some state
  stateRoot : state.stateRoot keccak = input.currentBlock.header.stateRoot
  ancestorHeaders : rpcDb.ancestorHeaders recorded = .ok input.ancestorHeaders
  sameHash : hashSlow { input.currentBlock.header with logsBloom := reth.logsBloom output } = hashSlow input.currentBlock.header
  bytecodes : input.bytecodes = rpcDb.bytecodes recorded

end Execute

section Returns
variable {reth : Reth Body Sender Output E Other} {keccak : Bytes → B256} {codec : AccountCodec}
  {hashSlow : Header → B256} {executor : HostExecutor} {getFullBlock : UInt64 → Except String (Option (Block Body))}
  {rpcDb : RpcDb σ} {blockNumber : UInt64} {genesis : Genesis} {customBeneficiary : Option Address} {opcodeTracking : Bool}
  {input : ClientExecutorInput Body}

theorem fetchBlock_ok {number : UInt64} {block : Block Body}
    (h : fetchBlock getFullBlock number blockNumber = (.ok block : Except (HostFailure E Other) _)) :
    getFullBlock number = .ok (some block) := by
  unfold fetchBlock at h
  split at h
  · cases h
  · cases h
  · next found hfound => rw [hfound, Except.ok.inj h]

theorem recoverBlock_ok {block : Block Body} {recovered : RecoveredBlock Body Sender}
    (h : recoverBlock reth block = .ok recovered) :
    ∃ senders, reth.recover block = some senders ∧ ⟨block, senders⟩ = recovered := by
  unfold recoverBlock at h
  split at h
  · next senders hsenders => exact ⟨senders, hsenders, Except.ok.inj h⟩
  · cases h

theorem executeBlock_ok {chainId : UInt64} {db recorded : σ} {block : RecoveredBlock Body Sender} {output : Output}
    (h : executor.executeBlock reth rpcDb chainId db block = .ok (output, recorded)) :
    (reth.evmConfig.basicBlockExecutor executor.chainSpec executor.customBeneficiary chainId block).serve rpcDb.fetch db =
      (.ok (.ok output), recorded) := by
  unfold executeBlock at h
  split at h
  · cases h
  · cases h
  · cases h
  · next found recorded' hserve =>
      obtain ⟨rfl, rfl⟩ := Prod.mk.inj (Except.ok.inj h)
      exact hserve

theorem checkStateRoot_ok {state : EthereumState} {output : Output} {header : Header} {stateRoot : B256}
    (h : checkStateRoot reth keccak codec state output header = .ok stateRoot) :
    stateRoot = header.stateRoot ∧ ∃ mutated, state.update keccak codec (reth.hashStateSlow output) = some mutated ∧
      mutated.stateRoot keccak = header.stateRoot := by
  unfold checkStateRoot at h
  split at h
  · cases h
  · next mutated hmutated =>
      split at h
      · cases h
      · next hroot =>
          have hsame := not_not.mp hroot
          exact ⟨(Except.ok.inj h).symm.trans hsame, mutated, hmutated, hsame⟩

/-- The execution of the host returns an input when it has gone through all its steps. -/
theorem execute_returns (h : (executor.execute reth keccak codec hashSlow getFullBlock rpcDb blockNumber genesis
      customBeneficiary opcodeTracking).Returns input) :
    (input.genesis = genesis ∧ input.customBeneficiary = customBeneficiary ∧ input.opcodeTracking = opcodeTracking) ∧
      ∃ chainId previousBlock senders output db recorded state, executor.Executes reth keccak codec hashSlow getFullBlock
        rpcDb blockNumber input chainId previousBlock senders output db recorded state := by
  obtain ⟨chainId, hchain, h⟩ := h.bind
  obtain ⟨currentBlock, hcurrent, h⟩ := h.bind
  obtain ⟨previousBlock, hprevious, h⟩ := h.bind
  obtain ⟨db, hdb, h⟩ := h.bind
  obtain ⟨block, hblock, h⟩ := h.bind
  obtain ⟨senders, hsenders, rfl⟩ := recoverBlock_ok (returns_of.mp hblock)
  obtain ⟨u, hvalid, h⟩ := h.bind
  obtain ⟨u, hheader, h⟩ := h.bind
  obtain ⟨⟨output, recorded⟩, houtput, h⟩ := h.bind
  dsimp only at h
  obtain ⟨u, hpost, h⟩ := h.bind
  obtain ⟨state, hstate, h⟩ := h.bind
  obtain ⟨stateRoot, hroot, h⟩ := h.bind
  obtain ⟨ancestorHeaders, hancestors, h⟩ := h.bind
  obtain ⟨rfl, mutated, hmutated, hsame⟩ := checkStateRoot_ok (returns_of.mp hroot)
  rw [deriveHeader_self] at h
  split at h
  · exact absurd h not_returns_throw
  · next hhash =>
    rw [returns_pure] at h
    obtain rfl := h
    exact ⟨⟨rfl, rfl, rfl⟩, chainId, previousBlock, senders, output, db, recorded, mutated,
      mapError_ok_iff.mp (returns_of.mp hchain), fetchBlock_ok (returns_of.mp hcurrent),
      fetchBlock_ok (returns_of.mp hprevious), returns_adapt.mp hdb, hsenders, mapError_ok_iff.mp (returns_of.mp hvalid),
      executeBlock_ok (returns_of.mp houtput), mapError_ok_iff.mp (returns_of.mp hpost), returns_adapt.mp hstate,
      hmutated, hsame, mapError_ok_iff.mp (returns_of.mp hancestors), not_not.mp hhash, rfl⟩

/-- An execution that goes through all its steps returns. -/
theorem Executes.returns {chainId : UInt64} {previousBlock : Block Body} {senders : List Sender} {output : Output}
    {db recorded : σ} {state : EthereumState} (h : executor.Executes reth keccak codec hashSlow getFullBlock rpcDb
      blockNumber input chainId previousBlock senders output db recorded state) :
    (executor.execute reth keccak codec hashSlow getFullBlock rpcDb blockNumber input.genesis input.customBeneficiary
      input.opcodeTracking).Returns input := by
  have hcurrent : fetchBlock getFullBlock blockNumber blockNumber =
      (.ok input.currentBlock : Except (HostFailure E Other) _) := by rw [fetchBlock, h.currentBlock]
  have hprevious : fetchBlock getFullBlock (blockNumber - 1) blockNumber =
      (.ok previousBlock : Except (HostFailure E Other) _) := by rw [fetchBlock, h.previous]
  have hrecovered : recoverBlock reth input.currentBlock =
      (.ok ⟨input.currentBlock, senders⟩ : Except (HostFailure E Other) _) := by rw [recoverBlock, h.recovered]
  obtain ⟨u, hheader, -⟩ := bind_ok_inv h.validBlock
  have hexecuted : executor.executeBlock reth rpcDb chainId db ⟨input.currentBlock, senders⟩ = .ok (output, recorded) := by
    rw [executeBlock, h.executed]
  have hroot : checkStateRoot reth keccak codec input.parentState output input.currentBlock.header =
      (.ok input.currentBlock.header.stateRoot : Except (HostFailure E Other) _) := by
    rw [checkStateRoot, h.updated]
    dsimp only
    rw [h.stateRoot, if_neg (not_not.mpr rfl)]
  refine returns_bind.mpr ⟨chainId, returns_of.mpr (mapError_ok_iff.mpr h.chain), ?_⟩
  refine returns_bind.mpr ⟨_, returns_of.mpr hcurrent, ?_⟩
  refine returns_bind.mpr ⟨_, returns_of.mpr hprevious, ?_⟩
  refine returns_bind.mpr ⟨db, returns_adapt.mpr h.opened, ?_⟩
  refine returns_bind.mpr ⟨_, returns_of.mpr hrecovered, ?_⟩
  refine returns_bind.mpr ⟨(), returns_of.mpr (mapError_ok_iff.mpr h.validBlock), ?_⟩
  refine returns_bind.mpr ⟨u, returns_of.mpr (mapError_ok_iff.mpr hheader), ?_⟩
  refine returns_bind.mpr ⟨_, returns_of.mpr hexecuted, ?_⟩
  refine returns_bind.mpr ⟨(), returns_of.mpr (mapError_ok_iff.mpr h.postExecution), ?_⟩
  refine returns_bind.mpr ⟨_, returns_adapt.mpr h.parentState, ?_⟩
  refine returns_bind.mpr ⟨_, returns_of.mpr hroot, ?_⟩
  refine returns_bind.mpr ⟨_, returns_of.mpr (mapError_ok_iff.mpr h.ancestorHeaders), ?_⟩
  rw [deriveHeader_self, if_neg (not_not.mpr h.sameHash), returns_pure, ← h.bytecodes]

/-- The tracking of opcodes plays no part. -/
theorem Executes.track {chainId : UInt64} {previousBlock : Block Body} {senders : List Sender} {output : Output}
    {db recorded : σ} {state : EthereumState} (h : executor.Executes reth keccak codec hashSlow getFullBlock rpcDb
      blockNumber input chainId previousBlock senders output db recorded state) (opcodeTracking : Bool) :
    executor.Executes reth keccak codec hashSlow getFullBlock rpcDb blockNumber
      { input with opcodeTracking := opcodeTracking } chainId previousBlock senders output db recorded state :=
  ⟨h.chain, h.currentBlock, h.previous, h.opened, h.recovered, h.validBlock, h.executed, h.postExecution, h.parentState,
    h.updated, h.stateRoot, h.ancestorHeaders, h.sameHash, h.bytecodes⟩

/-- The host as a function of what it is asked for: where it returns, what it finds out. -/
def outcomes (executor : HostExecutor) (reth : Reth Body Sender Output E Other) (keccak : Bytes → B256)
    (codec : AccountCodec) (hashSlow : Header → B256) (getFullBlock : UInt64 → Except String (Option (Block Body)))
    (rpcDb : RpcDb σ) : RethProcessor.HostExecutor Body where
  outcome blockNumber genesis customBeneficiary :=
    match (executor.execute reth keccak codec hashSlow getFullBlock rpcDb blockNumber genesis customBeneficiary false).run with
    | some (.ok input) => some ⟨input.currentBlock, input.ancestorHeaders, input.parentState, input.bytecodes⟩
    | _ => none

/-- The function that the cache of inputs is filled from is the execution of the host: the tracking
of opcodes is copied into the input and plays no other part. -/
theorem outcomes_execute : (executor.outcomes reth keccak codec hashSlow getFullBlock rpcDb).execute blockNumber genesis
      customBeneficiary opcodeTracking = some input ↔
    (executor.execute reth keccak codec hashSlow getFullBlock rpcDb blockNumber genesis customBeneficiary
      opcodeTracking).Returns input := by
  rw [RethProcessor.HostExecutor.execute, Option.map_eq_some_iff]
  constructor
  · rintro ⟨outcome, houtcome, rfl⟩
    simp only [outcomes] at houtcome
    split at houtcome
    · next found hfound =>
        obtain ⟨⟨rfl, rfl, -⟩, chainId, previous, senders, output, db, recorded, state, h⟩ := execute_returns hfound
        obtain rfl := Option.some.inj houtcome
        exact (h.track opcodeTracking).returns
    · cases houtcome
  · intro h
    obtain ⟨⟨rfl, rfl, rfl⟩, chainId, previous, senders, output, db, recorded, state, h⟩ := execute_returns h
    have hplain := (h.track false).returns
    rw [Call.Returns] at hplain
    refine ⟨⟨input.currentBlock, input.ancestorHeaders, input.parentState, input.bytecodes⟩, ?_, rfl⟩
    simp only [outcomes, hplain]

end Returns

end HostExecutor

end RethProcessor.Host
