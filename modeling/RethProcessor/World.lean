import RethProcessor.ClientExecutor
import RethProcessor.HonestState

/-! The world in which a block is executed, and what the guest proves of it. A witness that the guest
accepts answers nothing but what the world does, so the block it commits to leads there as well. -/
namespace RethProcessor
open Calls Programs Lockstep

/-- The accounts, codes, storages and block hashes that a block is executed over. -/
structure World where
  account : Address → Option AccountInfo
  code : B256 → Bytes
  storage : Address → U256 → U256
  blockHash : UInt64 → B256

def World.answer (w : World) : (q : Query) → Option q.Reply
  | .basic address => some (w.account address)
  | .codeByHash hash => some (w.code hash)
  | .storage address index => some (w.storage address index)
  | .blockHash number => some (w.blockHash number)

/-- An account without anything in it. -/
def AccountInfo.empty : AccountInfo := ⟨0, 0, KECCAK_EMPTY⟩

/-- What the database gives of a leaf. -/
def TrieAccount.info (account : TrieAccount) : AccountInfo := ⟨account.balance, account.nonce, account.codeHash⟩

section Keccak
variable {Body : Type} (keccak : Bytes → B256) (codec : AccountCodec) (decodeSlot : Bytes → Option U256)
  (hashSlow : Header → B256)

/-- A whole state holds the accounts and the storages of a world. -/
structure EthereumState.Holds (f : EthereumState) (w : World) : Prop where
  tries : f.Tries (FullTrieOver 64)
  consistent : f.Consistent keccak codec
  account : ∀ address, ∃ leaf, f.stateTrie.getRlp codec.decode (keccak address.bytes).bytes = .ok leaf ∧
    w.account address = leaf.map TrieAccount.info
  storage : ∀ address index, ∃ value,
    (f.storageTrie (keccak address.bytes)).getRlp decodeSlot (keccak (toBeBytes index)).bytes = .ok value ∧
      w.storage address index = value.getD 0

/-- A hash of an address without an account. -/
def World.Absent (keccak : Bytes → B256) (w : World) (hashedAddress : B256) : Prop :=
  ∃ address, w.account address = none ∧ keccak address.bytes = hashedAddress

/-- The paths in the tries of a state are flagged as the decoder reads them. -/
structure EthereumState.Flagged (s : EthereumState) : Prop where
  stateTrie : WellFlagged s.stateTrie
  storageTries : ∀ h trie, s.storageTries.lookup h = some trie → WellFlagged trie

end Keccak

section Answers
variable {keccak : Bytes → B256} {codec : AccountCodec} {decodeSlot : Bytes → Option U256} {hashSlow : Header → B256}
  {w : World} {f s : EthereumState}

/-- A state with the root of a whole one that `witness_db` accepts is a part of it. -/
theorem EthereumState.Accepted.prunes {anchor : B256} (hs : s.Accepted keccak codec anchor) (hf : f.Tries (FullTrieOver 64))
    (hcons : f.Consistent keccak codec) (hroot : f.stateRoot keccak = anchor) (hflag : s.Flagged)
    (hempty : keccak [EMPTY_STRING_CODE] = EMPTY_ROOT)
    (haddr : Addressable keccak f.stateTrie ∧ ∀ h, Addressable keccak (f.storageTrie h))
    (hfree : CollisionFree keccak f.stateTrie s.stateTrie)
    (hfrees : ∀ h trie, s.storageTries.lookup h = some trie → CollisionFree keccak (f.storageTrie h) trie) :
    s.Prunes keccak f := by
  have hstate : StandsFor keccak s.stateTrie f.stateTrie :=
    (standsFor_iff_hash hf.stateTrie haddr.1 hfree hempty).mpr ⟨hflag.stateTrie, (hroot.trans hs.stateRoot).symm⟩
  refine ⟨hstate, ?_⟩
  intro h trie hl
  refine (standsFor_iff_hash (hf.storageTrie kept_fullOver h) (haddr.2 h) (hfrees h trie hl) hempty).mpr
    ⟨hflag.storageTries h trie hl, ?_⟩
  have hpart := hs.storageRoots h (mem_keys_iff.mpr ⟨trie, hl⟩)
  rw [storageTrie_of_lookup hl] at hpart
  have hwhole := hcons h
  rw [storageRootAt] at hpart hwhole
  cases hget : s.stateTrie.getRlp codec.decode h.bytes with
  | error e =>
      rw [hget] at hpart
      cases hpart
  | ok account =>
      rw [hget, Option.some.injEq] at hpart
      rw [getRlp_of_get (fun x hx => hstate.get_of_ok hx) hget, Option.some.injEq] at hwhole
      exact hpart.symm.trans hwhole

theorem TrieDB.basicRef_of_getRlp {db : TrieDB} {address : Address} {account : Option TrieAccount}
    (h : db.inner.stateTrie.getRlp codec.decode (keccak address.bytes).bytes = .ok account) :
    db.basicRef keccak codec address = some (account.map TrieAccount.info) := by
  rw [TrieDB.basicRef, h]
  rfl

end Answers

section Sound
variable {Body Sender Output E Other : Type} {reth : Reth Body Sender Output E Other} {keccak : Bytes → B256}
  {codec : AccountCodec} {decodeSlot : Bytes → Option U256} {hashSlow : Header → B256} {w : World} {f : EthereumState}

end Sound

section Sample

/-- The blocks of the sample: the first one has the earlier state, the second one the later state. -/
def shownBlocks (n : UInt64) : RpcHeader :=
  if n = 0 then { emptyBlock 0 B256.ZERO firstHash with stateRoot := shownDigest }
  else { emptyBlock 1 firstHash secondHash with stateRoot := laterDigest }

def shownChain (n : UInt64) : Header := (shownBlocks n).rebuild

/-- A block that raises the nonce of an account, and looks at the hash of the block before. -/
def raiseNonce : Program Query Query.Reply (Except String HashedPostState) :=
  .ask (.basic Address.ZERO) fun (account : Option AccountInfo) => .ask (.blockHash 0) fun _ =>
    .done (.ok ⟨AList.singleton zeroAddressHash
      (some ⟨(account.getD .empty).nonce + 1, (account.getD .empty).balance, none⟩), ∅⟩)

/-- An execution that is the same for every block, with a step for each transaction that does nothing. -/
def sameExecution (program : Program Query Query.Reply (Except String HashedPostState)) :
    EvmConfig Unit Unit HashedPostState String where
  EvmEnv := Unit
  Context := Unit
  Strategy := Unit
  Transaction := Unit
  basicBlockExecutor _ _ _ _ := program
  evmEnv _ _ := .ok ()
  setBeneficiary _ _ := ()
  contextForBlock _ _ := .ok ()
  createExecutor _ _ _ := ()
  transactionsRecovered block := block.senders
  applyPreExecutionChanges _ := pure ()
  executeTransaction _ _ := pure ()
  applyPostExecutionChanges _ := .mk program

def raiseReth : Reth Unit Unit HashedPostState String String where
  recover _ := some []
  namedChain _ := none
  headerChecks _ := [difficultyCheck, gasCheck]
  bodyAgainstHeader _ _ := .ok ()
  headerAgainstParent _ _ _ := .ok ()
  evmConfig := sameExecution raiseNonce
  postExecution _ _ _ _ := .ok ()
  hashStateSlow diff := diff
  modifiedKeys _ _ := ∅
  logsBloom _ := 0

def noFiles : Genesis.Files := ⟨"", "", "", fun _ => .error "no file"⟩

/-- The second block, over the earlier state. -/
def raiseInput : ClientExecutorInput Unit where
  currentBlock := ⟨shownChain 1, ()⟩
  ancestorHeaders := [shownChain 0]
  parentState := earlierState
  bytecodes := []
  genesis := .mainnet
  customBeneficiary := none
  opcodeTracking := false

theorem stateRoot_earlierState : earlierState.stateRoot laterKeccak = shownDigest := by
  rw [EthereumState.stateRoot, earlierState, hash_of_isListed rfl, encode_earlierLeaf]
  decide +kernel

theorem stateRoot_laterState : laterState.stateRoot laterKeccak = laterDigest := by
  rw [EthereumState.stateRoot, laterState, hash_of_isListed rfl, encode_laterLeaf]
  decide +kernel

theorem accepted_earlierState : earlierState.Accepted laterKeccak rlpCodec shownDigest := by
  refine ⟨stateRoot_earlierState.symm, ?_⟩
  intro h hmem
  cases hmem

theorem basicRef_earlierState (blockHashes : HashMap UInt64 B256) :
    TrieDB.basicRef laterKeccak rlpCodec ⟨earlierState, blockHashes, ∅⟩ Address.ZERO = some (some ⟨1, 1, KECCAK_EMPTY⟩) := by
  have hget : earlierState.stateTrie.getRlp rlpCodec.decode (laterKeccak Address.ZERO.bytes).bytes =
      .ok (some ⟨1, 1, EMPTY_ROOT, KECCAK_EMPTY⟩) := EthereumState.getRlp_leaf (s := earlierState) get_shownLeaf
  exact @TrieDB.basicRef_of_getRlp laterKeccak rlpCodec ⟨earlierState, blockHashes, ∅⟩ _ _ hget

theorem verifyBlock_raiseInput : verifyBlock raiseReth laterKeccak rlpCodec (fun _ => none) threeHashes noFiles
    raiseInput ∅ = .ok (secondHash, laterDigest, shownDigest) := by
  refine verifyBlock_ok_iff.mpr ⟨?_, ⟨1⟩, rfl, 1, ⟨earlierState, (∅ : HashMap UInt64 B256).insert 0 firstHash, ∅⟩, [],
    laterDiff, laterState, rfl, ?_, rfl, rfl, ?_, ?_, rfl, update_laterState, stateRoot_laterState⟩
  · rw [show raiseInput.parentState.stateRoot laterKeccak = shownDigest from stateRoot_earlierState]
    rfl
  · exact (witnessDb_ok_iff rfl).mpr ⟨⟨shownChain 0, rfl, accepted_earlierState⟩, rfl, rfl, rfl⟩
  · intro pair hpair
    rw [List.mem_singleton.mp hpair]
    rfl
  · have hbasic := basicRef_earlierState ((∅ : HashMap UInt64 B256).insert 0 firstHash)
    exact Program.run_ask.mpr ⟨_, hbasic, Program.run_ask.mpr ⟨firstHash, Finmap.lookup_insert _, rfl⟩⟩

end Sample

end RethProcessor
