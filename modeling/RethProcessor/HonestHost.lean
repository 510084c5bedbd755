import RethProcessor.HostExecutor
import Mathlib.Data.List.Lex

/-! The host over honest providers: the guest accepts every input that it makes, and of every valid
block it makes one. -/
namespace RethProcessor.Host
open Calls Paths Programs

section Countdown

theorem tupleWindows_map {α β : Type} (g : α → β) (l : List α) :
    tupleWindows (l.map g) = (tupleWindows l).map (Prod.map g g) := by
  rw [tupleWindows, tupleWindows, ← List.map_tail, List.zip_map]

/-- Down a countdown each number stands before its predecessor. -/
theorem mem_tupleWindows_countdown {last : UInt64} {count : Nat} {pair : UInt64 × UInt64}
    (h : pair ∈ tupleWindows (countdown last (count + 1))) : pair.1 = pair.2 + 1 ∧ pair.2 ∈ countdown (last - 1) count := by
  induction count generalizing last with
  | zero => cases h
  | succ count ih =>
      rw [countdown_succ, countdown_succ, tupleWindows, List.tail_cons, List.zip_cons_cons, List.mem_cons] at h
      rw [countdown_succ]
      rcases h with rfl | h
      · exact ⟨(UInt64.sub_add_cancel last 1).symm, List.mem_cons_self⟩
      · have hrest : pair ∈ tupleWindows (countdown (last - 1) (count + 1)) := by
          rw [countdown_succ]
          exact h
        obtain ⟨hstep, hmem⟩ := ih hrest
        exact ⟨hstep, List.mem_cons_of_mem _ hmem⟩

end Countdown

section Honest
variable {Body Sender Output E Other : Type} {reth : Reth Body Sender Output E Other} {keccak : Bytes → B256}
  {codec : AccountCodec} {decodeSlot : Bytes → Option U256} {hashSlow : Header → B256} {executor : HostExecutor}
  {getFullBlock : UInt64 → Except String (Option (Block Body))} {debugProvider : Provider} {states : StateProvider}
  {iteration : Iteration} {genesis : Genesis} {opcodeTracking : Bool} {chain : UInt64 → RpcHeader} {last : UInt64}
  {w : World} {f f' : EthereumState} {after : B256 → MptNode}

/-- Providers that are honest about a chain of blocks with valid headers, up to the one behind a number. -/
structure HonestBlocks (reth : Reth Body Sender Output E Other) (hashSlow : Header → B256) (chainSpec : ChainSpec)
    (getFullBlock : UInt64 → Except String (Option (Block Body))) (debugProvider : Provider) (chain : UInt64 → RpcHeader)
    (last : UInt64) : Prop where
  headers : HonestChain hashSlow debugProvider chain last
  next : (chain (last + 1)).number.toNat = last.toNat + 1 ∧ (chain (last + 1)).parentHash = (chain last).hash
  blocks : ∀ n block, n = last ∨ n = last + 1 → getFullBlock n = .ok (some block) → block.header = (chain n).rebuild
  valid : ∀ n ≤ last, validatePair reth chainSpec (.sealSlow hashSlow (chain (n + 1)).rebuild,
    .sealSlow hashSlow (chain n).rebuild) = .ok ()

/-- The guest accepts the headers below the block, down to an ancestor. -/
theorem HonestBlocks.validHeaders {chainSpec : ChainSpec}
    (hb : HonestBlocks reth hashSlow chainSpec getFullBlock debugProvider chain last) {oldest : UInt64} :
    ∀ pair ∈ tupleWindows (((chain (last + 1)).rebuild ::
        (countdown last (last.toNat - oldest.toNat + 1)).map fun n => (chain n).rebuild).map (.sealSlow hashSlow)),
      validatePair reth chainSpec pair = .ok () := by
  have hlist : ((chain (last + 1)).rebuild :: (countdown last (last.toNat - oldest.toNat + 1)).map fun n =>
      (chain n).rebuild).map (SealedHeader.sealSlow hashSlow) =
      (countdown (last + 1) (last.toNat - oldest.toNat + 1 + 1)).map fun n => .sealSlow hashSlow (chain n).rebuild := by
    rw [countdown_succ (last + 1), UInt64.add_sub_cancel, List.map_cons, List.map_cons, List.map_map]
    rfl
  intro pair hpair
  rw [hlist, tupleWindows_map] at hpair
  obtain ⟨⟨child, parent⟩, hmem, rfl⟩ := List.mem_map.mp hpair
  obtain ⟨hstep, hparent⟩ := mem_tupleWindows_countdown hmem
  rw [UInt64.add_sub_cancel, mem_countdown (by omega)] at hparent
  obtain rfl : child = parent + 1 := hstep
  exact hb.valid parent hparent.1

/-- A run of the host over honest providers: the execution of a block in a world, on the database of
the host, and what that has recorded in the end. The execution asks for the hashes of earlier blocks
only, and the state can be proved from. -/
structure HonestRun (reth : Reth Body Sender Output E Other) (keccak : Bytes → B256) (codec : AccountCodec)
    (decodeSlot : Bytes → Option U256) (hashSlow : Header → B256) (executor : HostExecutor)
    (getFullBlock : UInt64 → Except String (Option (Block Body))) (debugProvider : Provider) (states : StateProvider)
    (chain : UInt64 → RpcHeader) (last : UInt64) (w : World) (f f' : EthereumState) (after : B256 → MptNode)
    (genesis : Genesis) (block : Block Body) (senders : List Sender) (chainId : UInt64) (output : Output)
    (cache : CacheDb) : Prop where
  blocks : HonestBlocks reth hashSlow executor.chainSpec getFullBlock debugProvider chain last
  honestStates : HonestStates keccak states w f f' after last
  holds : f.Holds keccak codec decodeSlot w
  stateRoot : f.stateRoot keccak = (chain last).stateRoot
  currentBlock : getFullBlock (last + 1) = .ok (some block)
  recovered : reth.recover block = some senders
  knownChain : genesis.chainId = .ok chainId
  executed : (reth.evmConfig.basicBlockExecutor executor.chainSpec executor.customBeneficiary chainId ⟨block, senders⟩).serve
    CacheDb.fetch (.new (.new debugProvider states last (f.stateRoot keccak))) = (.ok (.ok output), cache)
  asks : (reth.evmConfig.basicBlockExecutor executor.chainSpec executor.customBeneficiary chainId ⟨block, senders⟩).Asks
    fun q => ∀ n, q = .blockHash n → n ≤ last
  provable : ∀ proofs : IteratedMap Address AccountProof, (∀ a, a ∈ proofs ↔ a ∈ cache.db.requested) →
    ProvableStates keccak f f' after (cache.db.keys (reth.modifiedKeys output))
      (StateRpcDb.modifiedKeys (reth.modifiedKeys output)) proofs

namespace HonestRun
variable {block : Block Body} {senders : List Sender} {chainId : UInt64} {output : Output} {cache : CacheDb}

/-- What the run has recorded is true of the world, and it has recorded every question. -/
theorem serve (h : HonestRun reth keccak codec decodeSlot hashSlow executor getFullBlock debugProvider states chain last
      w f f' after genesis block senders chainId output cache) :
    (reth.evmConfig.basicBlockExecutor executor.chainSpec executor.customBeneficiary chainId ⟨block, senders⟩).run
        (w.hostAnswer debugProvider) = some (.ok output) ∧
      cache.Truthful debugProvider states w last (f.stateRoot keccak) ∧
      ∀ q ∈ (reth.evmConfig.basicBlockExecutor executor.chainSpec executor.customBeneficiary chainId ⟨block, senders⟩).asked
        (w.hostAnswer debugProvider), cache.Recorded w q := by
  have hstart : (CacheDb.new (.new debugProvider states last (f.stateRoot keccak))).Truthful debugProvider states w last
      (f.stateRoot keccak) := by
    refine ⟨rfl, rfl, rfl, rfl, UInt64.le_refl last, ?_, ?_⟩
    · intro address account hl
      cases hl
    · intro hash code hl
      cases hl
  obtain ⟨hrun, ht, hasked, -⟩ := (CacheDb.records h.honestStates).serve hstart h.executed
  exact ⟨hrun, ht, hasked⟩

/-- The headers that the host fetches: from the block before down to the oldest one asked for. -/
theorem ancestorHeaders (h : HonestRun reth keccak codec decodeSlot hashSlow executor getFullBlock debugProvider states
      chain last w f f' after genesis block senders chainId output cache) :
    cache.db.ancestorHeaders =
      .ok ((countdown last (last.toNat - cache.db.oldestAncestor.toNat + 1)).map fun n => (chain n).rebuild) := by
  obtain ⟨-, ht, -⟩ := h.serve
  have hdb : cache.db.toBasicRpcDb = ⟨debugProvider, last, cache.db.oldestAncestor⟩ := by
    rw [← ht.provider, ← ht.blockNumber]
  rw [hdb]
  exact h.blocks.headers.ancestorHeaders ht.oldest

theorem header_eq (h : HonestRun reth keccak codec decodeSlot hashSlow executor getFullBlock debugProvider states
      chain last w f f' after genesis block senders chainId output cache) : block.header = (chain (last + 1)).rebuild :=
  h.blocks.blocks (last + 1) _ (.inr rfl) h.currentBlock

/-- The walk of the guest over these headers finds the hashes that the provider gives. -/
theorem checkHeaders (h : HonestRun reth keccak codec decodeSlot hashSlow executor getFullBlock debugProvider states
      chain last w f f' after genesis block senders chainId output cache) {input : ClientExecutorInput Body}
    (hcurrent : input.currentBlock = block) (hancestors : cache.db.ancestorHeaders = .ok input.ancestorHeaders) :
    ∃ blockHashes, RethProcessor.checkHeaders ∅ (input.sealedHeaders hashSlow) = .ok blockHashes ∧
      ∀ n ≤ last, cache.db.oldestAncestor ≤ n → ∀ block, debugProvider n = .ok (some block) →
        blockHashes.lookup n = some block.hash := by
  rw [h.ancestorHeaders, Except.ok.injEq] at hancestors
  have hnumber : (chain (last + 1)).rebuild.number - 1 = last := by
    have hnext := h.blocks.next.1
    have hpred := toNat_pred (n := (chain (last + 1)).number) (by rw [hnext]; omega)
    rw [hnext, Nat.add_sub_cancel] at hpred
    exact UInt64.toNat_inj.mp hpred
  have hcount : last.toNat - cache.db.oldestAncestor.toNat + 1 ≤ last.toNat + 1 := by omega
  obtain ⟨blockHashes, hcheck, hlookup⟩ := @HonestChain.checkHeaders hashSlow _ _ _ h.blocks.headers _ _ hcount
    (UInt64.le_refl last) (.sealSlow hashSlow (chain (last + 1)).rebuild) hnumber h.blocks.next.2 ∅
  refine ⟨blockHashes, ?_, ?_⟩
  · rw [ClientExecutorInput.sealedHeaders, hcurrent, h.header_eq, ← hancestors]
    exact hcheck
  · intro n hn holdest found hfound
    obtain rfl : chain n = found := by
      exact Option.some.inj (Except.ok.inj ((h.blocks.headers.answers n hn).symm.trans hfound))
    have hin : n ∈ countdown last (last.toNat - cache.db.oldestAncestor.toNat + 1) := by
      rw [UInt64.le_iff_toNat_le] at holdest
      exact (mem_countdown hcount).mpr ⟨hn, by omega⟩
    rw [hlookup, if_pos hin]

/-- What the host makes of such a run is an input that the guest opens its database from. -/
theorem witnessDb (h : HonestRun reth keccak codec decodeSlot hashSlow executor getFullBlock debugProvider states
      chain last w f f' after genesis block senders chainId output cache) {input : ClientExecutorInput Body}
    {storageTries : IteratedMap B256 MptNode} (hcurrent : input.currentBlock = block)
    (hancestors : cache.db.ancestorHeaders = .ok input.ancestorHeaders)
    (haccepted : input.parentState.Accepted keccak codec (f.stateRoot keccak))
    (htries : storageTries.toFinmap = input.parentState.storageTries) :
    ∃ db, RethProcessor.witnessDb keccak codec input storageTries (input.sealedHeaders hashSlow) = .ok db ∧
      db.inner = input.parentState ∧
      db.bytecodeByHash = input.bytecodes.foldl (fun codes code => codes.insert (keccak code) code) ∅ ∧
      ∀ n ≤ last, cache.db.oldestAncestor ≤ n → ∀ block, debugProvider n = .ok (some block) →
        db.blockHashes.lookup n = some block.hash := by
  obtain ⟨blockHashes, hcheck, hhashes⟩ := h.checkHeaders hcurrent hancestors
  have hhead : input.ancestorHeaders.head? = some (chain last).rebuild := by
    rw [h.ancestorHeaders, Except.ok.injEq] at hancestors
    rw [← hancestors, countdown_succ]
    rfl
  have hroot : f.stateRoot keccak = (chain last).rebuild.stateRoot := h.stateRoot
  exact ⟨⟨input.parentState, blockHashes, _⟩,
    (witnessDb_ok_iff htries).mpr ⟨⟨_, hhead, hroot ▸ haccepted⟩, hcheck, rfl, rfl⟩, rfl, rfl, hhashes⟩

/-- The guest accepts the headers of the input. -/
theorem validHeaders (h : HonestRun reth keccak codec decodeSlot hashSlow executor getFullBlock debugProvider states
      chain last w f f' after genesis block senders chainId output cache) {input : ClientExecutorInput Body}
    (hcurrent : input.currentBlock = block) (hancestors : cache.db.ancestorHeaders = .ok input.ancestorHeaders) :
    ∀ pair ∈ tupleWindows (input.sealedHeaders hashSlow), validatePair reth executor.chainSpec pair = .ok () := by
  rw [h.ancestorHeaders, Except.ok.injEq] at hancestors
  rw [ClientExecutorInput.sealedHeaders, hcurrent, h.header_eq, ← hancestors]
  exact h.blocks.validHeaders

end HonestRun

/-- An output that passes the checks where another one does, with the same changes, but perhaps without
deletions of accounts that are not there. -/
structure Fits (reth : Reth Body Sender Output E Other) (absent : B256 → Prop) (output output' : Output) : Prop where
  postExecution : ∀ block chainSpec isGoat, reth.postExecution block chainSpec output isGoat = .ok () →
    reth.postExecution block chainSpec output' isGoat = .ok ()
  changes : (reth.hashStateSlow output).Drops absent (reth.hashStateSlow output')

/-- The same of executions, which may fail. -/
def FitsResult (reth : Reth Body Sender Output E Other) (absent : B256 → Prop) (result result' : Except E Output) : Prop :=
  ∀ output, result = .ok output → ∃ output', result' = .ok output' ∧ Fits reth absent output output'

namespace HostExecutor
variable {block : Block Body} {senders : List Sender} {chainId : UInt64} {output : Output} {cache : CacheDb}

/-- Over honest providers the guest accepts every input that the host makes without opcode tracking, and
commits to the hash of the block. An account that is not there has to be taken for an empty one by the
execution, which may report the deletion of the empty one. -/
theorem execute_accepted {files : Genesis.Files}
    (h : HonestRun reth keccak codec decodeSlot hashSlow executor getFullBlock debugProvider states chain last w f f'
      after genesis block senders chainId output cache)
    (hspec : genesis.chainSpec files = .ok executor.chainSpec)
    (halike : Program.Alike w.SameReply (FitsResult reth (w.Absent keccak))
      (reth.evmConfig.basicBlockExecutor executor.chainSpec executor.customBeneficiary chainId ⟨block, senders⟩)
      (reth.evmConfig.basicBlockExecutor executor.chainSpec executor.customBeneficiary chainId ⟨block, senders⟩)) :
    ∃ enough, ∀ fuel, enough ≤ fuel → ∀ input, (executor.execute reth keccak codec hashSlow getFullBlock
        (CacheDb.rpcDb debugProvider states keccak iteration fuel) (last + 1) genesis executor.customBeneficiary
        false).Returns input →
      input.currentBlock = block ∧ ∀ storageTries : IteratedMap B256 MptNode,
        storageTries.toFinmap = input.parentState.storageTries →
        verifyBlock reth keccak codec decodeSlot hashSlow files input storageTries =
          .ok (hashSlow block.header, block.header.stateRoot, f.stateRoot keccak) := by
  obtain ⟨hrun, ht, hasked⟩ := h.serve
  obtain ⟨s, enough, proofs, hproofs, hstate, hstands⟩ := StateRpcDb.state_standsIn h.honestStates ht iteration h.provable
  refine ⟨enough, ?_⟩
  intro fuel hfuel input hinput
  obtain ⟨⟨hgenesis, hbeneficiary, htracking⟩, chainId', previous, senders', output', db', cache', state, hexec⟩ :=
    execute_returns hinput
  -- the run of the host is the one that is given
  have hcurrent : input.currentBlock = block :=
    Option.some.inj (Except.ok.inj (hexec.currentBlock.symm.trans h.currentBlock))
  have hlast : last + 1 - 1 = last := UInt64.add_sub_cancel last 1
  have hprevious : previous.header.stateRoot = f.stateRoot keccak := by
    rw [h.blocks.blocks last previous (.inl rfl) (hlast ▸ hexec.previous), h.stateRoot]
    rfl
  have hchainId : chainId' = chainId := Except.ok.inj (hexec.chain.symm.trans (hgenesis ▸ h.knownChain))
  have hsame : senders' = senders := Option.some.inj (hexec.recovered.symm.trans (hcurrent ▸ h.recovered))
  have hopened := returns_pure.mp hexec.opened
  have hexecuted := hexec.executed
  rw [← hopened, hchainId, hcurrent, hsame, hlast, hprevious] at hexecuted
  have hexecuted := h.executed.symm.trans hexecuted
  rw [Prod.mk.injEq, Except.ok.injEq, Except.ok.injEq] at hexecuted
  obtain ⟨houtput, hcache⟩ := hexecuted
  have hparent : input.parentState = s := by
    have hreturned := hexec.parentState
    rw [← houtput, ← hcache] at hreturned
    exact Except.ok.inj (Option.some.inj (hreturned.symm.trans (hstate fuel hfuel)))
  have hancestors : cache.db.ancestorHeaders = .ok input.ancestorHeaders :=
    hcache ▸ mapError_ok_iff.mp hexec.ancestorHeaders
  refine ⟨hcurrent, ?_⟩
  intro storageTries htries
  obtain ⟨db, hdatabase, hinner, hcodes, hhashes⟩ := h.witnessDb hcurrent hancestors
    (hparent ▸ hstands.accepted h.holds.consistent) htries
  have hbytecodes : input.bytecodes = cache.db.bytecodes keccak iteration := hcache ▸ hexec.bytecodes
  rw [hbytecodes] at hcodes
  obtain ⟨result, hguest, hfits⟩ := halike.run (fun q hq r hr => @StandsIn.answer _ _ _ _ _ _ _ _ _ _ _ _ _ _ _ _ db
    h.honestStates h.holds ht hstands hproofs (hinner.trans hparent) hcodes hhashes _ (hasked q hq) (h.asks.asked q hq)
    r hr) hrun
  obtain ⟨output'', rfl, hfit⟩ := hfits output rfl
  have hupdated : input.parentState.update keccak codec (reth.hashStateSlow output'') = some state := by
    refine EthereumState.update_drops (hparent ▸ hstands.sparse h.holds.tries) hfit.changes ?_ (houtput ▸ hexec.updated)
    rintro hash ⟨address, habsent, rfl⟩ value hget
    obtain ⟨leaf, hleaf, hw⟩ := h.holds.account address
    rw [hparent] at hget
    have hfull : f.stateTrie.get (keccak address.bytes).bytes = .ok (some value) := hstands.state.pruning.get_ok hget
    rw [habsent, eq_comm, Option.map_eq_none_iff] at hw
    rw [hw, MptNode.getRlp, hfull] at hleaf
    dsimp only at hleaf
    split at hleaf
    · cases hleaf
    · cases hleaf
  have hverified : verifyBlock reth keccak codec decodeSlot hashSlow files input storageTries =
      .ok (hashSlow input.currentBlock.header, input.currentBlock.header.stateRoot, input.parentState.stateRoot keccak) := by
    refine verifyBlock_ok_iff.mpr ⟨rfl, executor.chainSpec, hgenesis ▸ hspec, chainId, db, senders, output'', state,
      hgenesis ▸ h.knownChain, hdatabase, hcurrent ▸ h.recovered, hsame ▸ hexec.validBlock,
      h.validHeaders hcurrent hancestors, ?_, ?_, hupdated, hexec.stateRoot⟩
    · rw [hbeneficiary, htracking, hcurrent]
      exact hguest
    · rw [← hchainId, ← hsame]
      exact hfit.postExecution _ _ _ (houtput ▸ hexec.postExecution)
  rw [hverified, hcurrent, hparent, hstands.prunes.stateRoot_eq]

/-- What the output of an execution changes: accounts that it has asked for, and slots that its output names. -/
structure Tracks (reth : Reth Body Sender Output E Other) (keccak : Bytes → B256) (output : Output) (db : StateRpcDb) :
    Prop where
  accounts : ∀ h ∈ (reth.hashStateSlow output).accounts, ∃ address ∈ db.requested, keccak address.bytes = h
  slots : ∀ address ∈ db.requested,
    ∀ slot ∈ ((reth.hashStateSlow output).storageOf (keccak address.bytes)).storage.entries,
      ∃ index ∈ reth.modifiedKeys output address, keccak (B256.ofU256 index).bytes = slot.1

theorem Tracks.covered (h : Tracks reth keccak output cache.db) {proofs : IteratedMap Address AccountProof}
    (hproofs : ∀ a, a ∈ proofs ↔ a ∈ cache.db.requested) :
    Covered keccak (reth.hashStateSlow output) (cache.db.keys (reth.modifiedKeys output))
      (StateRpcDb.modifiedKeys (reth.modifiedKeys output)) proofs := by
  refine ⟨?_, ?_⟩
  · intro hash hmem
    obtain ⟨address, hrequested, hhash⟩ := h.accounts hash hmem
    obtain ⟨proof, hproof⟩ := Option.isSome_iff_exists.mp (AList.lookup_isSome.mpr ((hproofs address).mpr hrequested))
    exact ⟨⟨address, proof⟩, AList.mem_lookup_iff.mp hproof, hhash⟩
  · intro entry hentry slot hslot
    have hrequested := (hproofs entry.1).mp (AList.mem_keys.mpr (List.mem_map_of_mem hentry))
    obtain ⟨index, hindex, hkey⟩ := h.slots entry.1 hrequested slot hslot
    exact ⟨B256.ofU256 index, List.mem_map_of_mem (mem_btreeSet.mpr hindex),
      List.mem_map_of_mem (mem_btreeSet.mpr (Finset.mem_union_right _ hindex)), hkey⟩

/-- Over honest providers the host makes an input of every valid block: one that executes to an
output that passes the checks and takes the state to the root of the header. -/
theorem execute_complete {previousBlock : Block Body}
    (h : HonestRun reth keccak codec decodeSlot hashSlow executor getFullBlock debugProvider states chain last w f f'
      after genesis block senders chainId output cache)
    (hprevious : getFullBlock last = .ok (some previousBlock))
    (hvalid : validateBlock reth hashSlow executor.chainSpec ⟨block, senders⟩ = .ok ())
    (hpost : reth.postExecution ⟨block, senders⟩ executor.chainSpec output (isGoatTestnet chainId) = .ok ())
    (hbloom : reth.logsBloom output = block.header.logsBloom) (htracks : Tracks reth keccak output cache.db)
    (hcodec : ∀ account, codec.encode account ≠ [])
    (hu : f.update keccak codec (reth.hashStateSlow output) = some f') (hroot : f'.stateRoot keccak = block.header.stateRoot)
    (hafter : ∀ h account, (reth.hashStateSlow output).accounts.lookup h = some (some account) → after h = f'.storageTrie h)
    (customBeneficiary : Option Address) :
    ∃ enough, ∀ fuel, enough ≤ fuel → ∃ input, (executor.execute reth keccak codec hashSlow getFullBlock
        (CacheDb.rpcDb debugProvider states keccak iteration fuel) (last + 1) genesis customBeneficiary
        opcodeTracking).Returns input ∧
      input.parentState.Prunes keccak f := by
  obtain ⟨s, enough, proofs, hproofs, hstate, hstands⟩ :=
    StateRpcDb.state_standsIn h.honestStates h.serve.2.1 iteration h.provable
  obtain ⟨mutated, hmutated, -, hmutatedRoot⟩ := hstands.update h.holds.tries hcodec (htracks.covered hproofs) hu hafter
  have hlast : last + 1 - 1 = last := UInt64.add_sub_cancel last 1
  have hpreviousRoot : previousBlock.header.stateRoot = f.stateRoot keccak := by
    rw [h.blocks.blocks last previousBlock (.inl rfl) hprevious, h.stateRoot]
    rfl
  refine ⟨enough, ?_⟩
  intro fuel hfuel
  let input : ClientExecutorInput Body :=
    ⟨block, (countdown last (last.toNat - cache.db.oldestAncestor.toNat + 1)).map fun n => (chain n).rebuild, s,
      cache.db.bytecodes keccak iteration, genesis, customBeneficiary, opcodeTracking⟩
  have hexecutes : executor.Executes reth keccak codec hashSlow getFullBlock
      (CacheDb.rpcDb debugProvider states keccak iteration fuel) (last + 1) input chainId previousBlock senders output
      (.new (.new debugProvider states last (f.stateRoot keccak))) cache mutated := by
    refine ⟨h.knownChain, h.currentBlock, hlast.symm ▸ hprevious, ?_, h.recovered, hvalid, h.executed, hpost,
      hstate fuel hfuel, hmutated, hmutatedRoot.trans hroot, mapError_ok_iff.mpr h.ancestorHeaders, ?_, rfl⟩
    · rw [hlast, hpreviousRoot]
      exact returns_pure.mpr rfl
    · rw [hbloom]
  exact ⟨input, hexecutes.returns, hstands.prunes⟩

end HostExecutor

end Honest

section Sample

/-- Addresses in the order of their bytes. -/
abbrev addressOrder : LinearOrder Address := LinearOrder.lift' (fun a => a.bytes.map UInt8.toNat) fun _ _ h =>
  Address.ext (List.map_injective_iff.mpr (fun _ _ => UInt8.toNat_inj.mp) h)

def sortAddresses (s : Finset Address) : List Address := @Finset.sort _ s addressOrder.le addressOrder.toDecidableLE _ _ _

theorem mem_sortAddresses {s : Finset Address} {a : Address} : a ∈ sortAddresses s ↔ a ∈ s := by
  rw [sortAddresses, Finset.mem_sort]

/-- The maps of the host, visited in the order of the addresses. -/
def sortedIteration : Iteration where
  addresses := sortAddresses
  proofs m := m
  codes m := (sortAddresses m.keys).filterMap fun a => (m.lookup a).map Prod.snd
  mem_addresses _ _ := mem_sortAddresses
  perm_proofs m := .refl m.entries
  mem_codes m code := by
    rw [List.mem_filterMap]
    constructor
    · rintro ⟨a, -, h⟩
      obtain ⟨⟨info, code⟩, hl, rfl⟩ := Option.map_eq_some_iff.mp h
      exact ⟨a, info, hl⟩
    · rintro ⟨a, info, hl⟩
      have hmem : a ∈ m.keys := Finmap.mem_keys.mpr (Finmap.mem_of_lookup_eq_some hl)
      exact ⟨a, mem_sortAddresses.mpr hmem, Option.map_eq_some_iff.mpr ⟨_, hl, rfl⟩⟩

theorem get_slotsTrie_zero : slotsTrie.get zeroSlotHash.bytes = .ok (some [1]) := by decide +kernel

theorem get_slotsTrie_one : slotsTrie.get oneSlotHash.bytes = .ok (some [2]) := by decide +kernel

theorem get_slotsTrie_of_ne {h : B256} (hzero : h ≠ zeroSlotHash) (hone : h ≠ oneSlotHash) :
    slotsTrie.get h.bytes = .ok none := by
  have hbranch : slotsTrie = .branch (Function.update
      (Function.update noChildren 2 (some (.leaf (toEncodedPath zeroSlotHash.nibs.tail true) [1])))
      11 (some (.leaf (toEncodedPath oneSlotHash.nibs.tail true) [2]))) := rfl
  have hleaf {x : Nibble} {rest : List Nibble} (hh : h.nibs = x :: rest) {k : B256} (hk : k.nibs = x :: k.nibs.tail)
      (hne : h ≠ k) (v : Bytes) : (MptNode.leaf (toEncodedPath k.nibs.tail true) v).getInternal rest = .ok none := by
    rw [getInternal_leaf, if_neg]
    intro hrest
    rw [hrest, ← hh] at hk
    exact hne (B256.nibs_inj.mp hk.symm)
  rw [get_eq_nibs, hbranch]
  cases hh : h.nibs with
  | nil => rfl
  | cons x rest =>
      rw [getInternal_branch_cons]
      by_cases hx : x = 11
      · subst hx
        rw [Function.update_self, getChild_some]
        exact hleaf hh rfl hone _
      · rw [Function.update_of_ne hx]
        by_cases hx' : x = 2
        · subst hx'
          rw [Function.update_self, getChild_some]
          exact hleaf hh rfl hzero _
        · rw [Function.update_of_ne hx']
          rfl
/-- The world that the state with two slots holds. -/
def slotsWorld : World where
  account address := if slotsKeccak address.bytes = zeroAddressHash then some ⟨1, 1, KECCAK_EMPTY⟩ else none
  code _ := []
  storage address index :=
    if slotsKeccak address.bytes = zeroAddressHash then
      if slotsKeccak (toBeBytes index) = zeroSlotHash then 1
      else if slotsKeccak (toBeBytes index) = oneSlotHash then 2 else 0
    else 0
  blockHash _ := firstHash

theorem holds_slotsState : slotsState.Holds slotsKeccak rlpCodec decodeUintRlp slotsWorld where
  tries := full_slotsState
  consistent := consistent_slotsState
  account address := by
    by_cases hkey : slotsKeccak address.bytes = zeroAddressHash
    · refine ⟨some ⟨1, 1, slotsRoot, KECCAK_EMPTY⟩, ?_, if_pos hkey⟩
      rw [hkey]
      exact EthereumState.getRlp_leaf (s := slotsState) (get_accountLeaf _ _)
    · refine ⟨none, ?_, if_neg hkey⟩
      have hget : slotsState.stateTrie.get (slotsKeccak address.bytes).bytes = .ok none := get_accountLeaf_of_ne hkey
      rw [MptNode.getRlp, hget]
  storage address index := by
    rw [storageTrie_slotsState, slotsWorld]
    dsimp only
    split_ifs with haddress hzero hone
    · refine ⟨some 1, ?_, rfl⟩
      rw [hzero, MptNode.getRlp, get_slotsTrie_zero]
      rfl
    · refine ⟨some 2, ?_, rfl⟩
      rw [hone, MptNode.getRlp, get_slotsTrie_one]
      rfl
    · refine ⟨none, ?_, rfl⟩
      rw [MptNode.getRlp, get_slotsTrie_of_ne hzero hone]
    · exact ⟨none, rfl, rfl⟩

/-- Two blocks: the first one has the state with the two slots, the second one clears one of them. -/
def slotsBlocks (n : UInt64) : RpcHeader :=
  if n = 0 then { emptyBlock 0 B256.ZERO firstHash with stateRoot := slotsStateRoot }
  else { emptyBlock 1 firstHash secondHash with stateRoot := clearedStateRoot }

def slotsChain (n : UInt64) : Header := (slotsBlocks n).rebuild

/-- A block that raises the nonce of an account and clears one of its slots. -/
def clearSlot : Program Query Query.Reply (Except String HashedPostState) :=
  .ask (.basic Address.ZERO) fun (account : Option AccountInfo) => .ask (.storage Address.ZERO 0) fun _ =>
    .ask (.blockHash 0) fun _ => .done (.ok ⟨AList.singleton zeroAddressHash
      (some ⟨(account.getD .empty).nonce + 1, (account.getD .empty).balance, none⟩), clearedDiff.storages⟩)

def clearReth : Reth Unit Unit HashedPostState String String :=
  { raiseReth with evmConfig := sameExecution clearSlot, modifiedKeys := fun _ _ => {0} }

/-- The response of an honest provider. -/
def honestResponse (f : EthereumState) (info : AccountInfo) (address : Address) (keys : List B256) :
    EIP1186AccountProofResponse where
  address := address
  balance := info.balance
  codeHash := info.codeHash
  nonce := info.nonce
  storageHash := (f.storageTrie (slotsKeccak address.bytes)).hash slotsKeccak
  accountProof := honestProof slotsKeccak f.stateTrie (slotsKeccak address.bytes).bytes
  storageProof := keys.map fun key =>
    ⟨key, 0, honestProof slotsKeccak (f.storageTrie (slotsKeccak address.bytes)) (slotsKeccak key.bytes).bytes⟩

/-- A provider that shows the state with the two slots, and the later one above it. -/
def slotsStates : StateProvider where
  getProof address keys n :=
    if n = 0 then .ok (honestResponse slotsState (slotsWorld.accountOrEmpty address) address keys)
    else .ok (honestResponse clearedState .empty address keys)
  getCodeAt _ _ := .ok []
  getStorageAt address index _ := .ok (slotsWorld.storage address index)

theorem honestResponse_shows {f : EthereumState} (hroot : ∀ h, (f.storageTrie h).hash slotsKeccak ≠ B256.ZERO)
    (info : AccountInfo) (address : Address) (keys : List B256) :
    (honestResponse f info address keys).Shows slotsKeccak f.stateTrie (f.storageTrie (slotsKeccak address.bytes))
      address keys where
  address_eq := rfl
  accountProof := rfl
  storageProof := List.map_map
  storageHash := .inl ⟨rfl, hroot _⟩

theorem codeHash_slotsWorld (address : Address) : (slotsWorld.accountOrEmpty address).codeHash = KECCAK_EMPTY := by
  rw [World.accountOrEmpty, slotsWorld]
  dsimp only
  split
  · rfl
  · rfl

theorem honestStates_slotsState :
    HonestStates slotsKeccak slotsStates slotsWorld slotsState clearedState clearedState.storageTrie 0 where
  code address := rfl
  codeHash address := by
    rw [codeHash_slotsWorld]
    rfl
  storage address index := rfl
  before address keys := by
    refine ⟨_, rfl, honestResponse_shows ?_ _ _ _, ?_⟩
    · intro h
      rw [storageTrie_slotsState]
      split_ifs
      · rw [hash_slotsTrie]
        decide
      · exact show EMPTY_ROOT ≠ B256.ZERO by decide
    · have hne : (slotsWorld.accountOrEmpty address).codeHash ≠ B256.ZERO := by
        rw [codeHash_slotsWorld]
        decide
      rw [EIP1186AccountProofResponse.info, honestResponse, if_neg hne]
  after address keys := by
    refine ⟨_, rfl, honestResponse_shows ?_ _ _ _⟩
    intro h
    rw [storageTrie_clearedState]
    split_ifs
    · rw [hash_clearedTrie]
      decide
    · exact show EMPTY_ROOT ≠ B256.ZERO by decide

/-- The provider of the blocks of the sample. -/
def slotsProvider : Provider := fun n => .ok (some (slotsBlocks n))

def slotsFullBlock (n : UInt64) : Except String (Option (Block Unit)) := .ok (some ⟨slotsChain n, ()⟩)

theorem honestBlocks_slotsBlocks : HonestBlocks clearReth threeHashes ⟨1⟩ slotsFullBlock slotsProvider slotsBlocks 0 := by
  have hzero {n : UInt64} (h : n ≤ 0) : n = 0 := UInt64.toNat_inj.mp (Nat.le_zero.mp (UInt64.le_iff_toNat_le.mp h))
  refine ⟨⟨fun n _ => rfl, ?_, ?_, ?_⟩, ⟨rfl, rfl⟩, ?_, ?_⟩
  · intro n hn
    rw [hzero hn]
    rfl
  · intro n hn
    rw [hzero hn]
    rfl
  · intro n hn
    exact absurd hn (UInt64.not_lt.mpr (UInt64.le_iff_toNat_le.mpr (Nat.zero_le _)))
  · intro n block _ hblock
    rw [← Option.some.inj (Except.ok.inj hblock)]
    rfl
  · intro n hn
    rw [hzero hn]
    rfl

/-- The database after the execution of the sample. -/
def slotsCache : CacheDb where
  db := ((StateRpcDb.new slotsProvider slotsStates 0 (slotsState.stateRoot slotsKeccak)).recordAccount Address.ZERO
    (⟨1, 1, KECCAK_EMPTY⟩, [])).recordStorage Address.ZERO 0 1
  contracts := (∅ : HashMap B256 Bytes).insert KECCAK_EMPTY []

theorem serve_clearSlot : clearSlot.serve CacheDb.fetch
    (.new (.new slotsProvider slotsStates 0 (slotsState.stateRoot slotsKeccak))) = (.ok (.ok clearedDiff), slotsCache) := rfl

theorem requested_slotsCache : slotsCache.db.requested = {Address.ZERO} := rfl

theorem ofU256_zero : (btreeSet {0}).map B256.ofU256 = [B256.ZERO] := by
  rw [btreeSet, Finset.image_singleton, Finset.sort_singleton]
  rfl

theorem keys_slotsCache : slotsCache.db.keys (clearReth.modifiedKeys clearedDiff) Address.ZERO = [B256.ZERO] := ofU256_zero

theorem honestRun_clearSlot : HonestRun clearReth slotsKeccak rlpCodec decodeUintRlp threeHashes ⟨⟨1⟩, none⟩ slotsFullBlock
    slotsProvider slotsStates slotsBlocks 0 slotsWorld slotsState clearedState clearedState.storageTrie .mainnet
    ⟨slotsChain 1, ()⟩ [] 1 clearedDiff slotsCache where
  blocks := honestBlocks_slotsBlocks
  honestStates := honestStates_slotsState
  holds := holds_slotsState
  stateRoot := stateRoot_slotsState
  currentBlock := rfl
  recovered := rfl
  knownChain := rfl
  executed := serve_clearSlot
  asks := .ask (fun n h => nomatch h) fun _ => .ask (fun n h => nomatch h) fun _ =>
    .ask (fun n h => by cases h; exact UInt64.le_refl 0) fun _ => .done _
  provable proofs hproofs :=
    provableStates_slotsState (fun a => (hproofs a).trans (by rw [requested_slotsCache, Finset.mem_singleton]))
      keys_slotsCache ofU256_zero

theorem fits_refl (absent : B256 → Prop) (diff : HashedPostState) : Fits clearReth absent diff diff :=
  ⟨fun _ _ _ h => h, fun _ => .inl rfl, fun _ _ _ => ⟨rfl, .refl _⟩⟩

theorem alike_clearSlot : Program.Alike slotsWorld.SameReply (FitsResult clearReth (slotsWorld.Absent slotsKeccak))
    clearSlot clearSlot := by
  refine .ask _ fun r r' hsame => .ask _ fun _ _ _ => .ask _ fun _ _ _ => .done ?_
  have hreply : (r : Option AccountInfo).getD .empty = (r' : Option AccountInfo).getD .empty := by
    rcases hsame with hsame | ⟨-, hempty, hnone⟩
    · rw [hsame]
    · rw [hempty, hnone]
      rfl
  rw [hreply]
  intro output houtput
  exact ⟨output, houtput, fits_refl _ _⟩

theorem execute_accepted_clearSlot : ∃ enough, ∀ fuel, enough ≤ fuel → ∀ input, (HostExecutor.execute clearReth slotsKeccak
      rlpCodec threeHashes ⟨⟨1⟩, none⟩ slotsFullBlock (CacheDb.rpcDb slotsProvider slotsStates slotsKeccak sortedIteration fuel)
      (0 + 1) .mainnet none false).Returns input →
    input.currentBlock = ⟨slotsChain 1, ()⟩ ∧ ∀ storageTries : IteratedMap B256 MptNode,
      storageTries.toFinmap = input.parentState.storageTries →
      verifyBlock clearReth slotsKeccak rlpCodec decodeUintRlp threeHashes noFiles input storageTries =
        .ok (threeHashes (slotsChain 1), (slotsChain 1).stateRoot, slotsState.stateRoot slotsKeccak) :=
  HostExecutor.execute_accepted honestRun_clearSlot rfl alike_clearSlot

theorem execute_complete_clearSlot : ∃ enough, ∀ fuel, enough ≤ fuel → ∃ input, (HostExecutor.execute clearReth slotsKeccak
      rlpCodec threeHashes ⟨⟨1⟩, none⟩ slotsFullBlock (CacheDb.rpcDb slotsProvider slotsStates slotsKeccak sortedIteration fuel)
      (0 + 1) .mainnet none true).Returns input ∧ input.parentState.Prunes slotsKeccak slotsState := by
  refine HostExecutor.execute_complete honestRun_clearSlot rfl rfl rfl rfl ⟨?_, ?_⟩ encode_ne_nil update_slotsState
    stateRoot_clearedState ?_ none
  · intro h hmem
    exact ⟨Address.ZERO, Finset.mem_singleton_self _, (List.mem_singleton.mp hmem).symm⟩
  · intro address haddress slot hslot
    rw [requested_slotsCache, Finset.mem_singleton] at haddress
    rw [haddress] at hslot
    obtain rfl : slot = ⟨zeroSlotHash, 0⟩ := List.mem_singleton.mp hslot
    exact ⟨0, Finset.mem_singleton_self _, rfl⟩
  · intro h account _
    rfl

end Sample

end RethProcessor.Host
