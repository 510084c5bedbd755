import RethProcessor.WitnessDb

/-! Block hashes, as the host records them and the guest replays them. The host keeps only the
oldest number that it was asked for; the guest walks a chain of headers down to it. -/
namespace RethProcessor
open Calls

/-- A header as a provider returns it, with its hash. -/
structure RpcHeader where
  hash : B256
  parentHash : B256
  ommersHash : B256
  beneficiary : Address
  stateRoot : B256
  transactionsRoot : B256
  receiptsRoot : B256
  logsBloom : BitVec 2048
  difficulty : U256
  number : UInt64
  gasLimit : UInt64
  gasUsed : UInt64
  timestamp : UInt64
  extraData : Bytes
  mixHash : Option B256
  nonce : Option (BitVec 64)
  baseFeePerGas : Option UInt64
  withdrawalsRoot : Option B256
  blobGasUsed : Option UInt64
  excessBlobGas : Option UInt64
  parentBeaconBlockRoot : Option B256
  requestsHash : Option B256

/-- The header that `ancestor_headers` makes of a block. -/
def RpcHeader.rebuild (block : RpcHeader) : Header where
  parentHash := block.parentHash
  ommersHash := block.ommersHash
  beneficiary := block.beneficiary
  stateRoot := block.stateRoot
  transactionsRoot := block.transactionsRoot
  receiptsRoot := block.receiptsRoot
  logsBloom := block.logsBloom
  difficulty := block.difficulty
  number := block.number
  gasLimit := block.gasLimit
  gasUsed := block.gasUsed
  timestamp := block.timestamp
  extraData := block.extraData
  mixHash := block.mixHash.getD B256.ZERO
  nonce := block.nonce.getD 0
  baseFeePerGas := block.baseFeePerGas
  withdrawalsRoot := block.withdrawalsRoot
  blobGasUsed := block.blobGasUsed
  excessBlobGas := block.excessBlobGas
  parentBeaconBlockRoot := block.parentBeaconBlockRoot
  requestsHash := block.requestsHash

/-- `get_block_by_number`: a transport error, or the header of a block if there is one. -/
abbrev Provider := UInt64 → Except String (Option RpcHeader)

inductive RpcDbError where
  | transport (text : String)
  | getBlockError (number : UInt64) (text : String)
  | blockNotFound (number : UInt64)
  deriving DecidableEq

structure BasicRpcDb where
  provider : Provider
  blockNumber : UInt64
  oldestAncestor : UInt64

/-- The first `count` numbers from `last` downwards. -/
def countdown (last : UInt64) (count : Nat) : List UInt64 :=
  (List.range count).map fun i => last - .ofNat i

namespace BasicRpcDb

def new (provider : Provider) (blockNumber : UInt64) : BasicRpcDb := ⟨provider, blockNumber, blockNumber⟩

/-- `fetch_block_hash`, and the database that it leaves. -/
def fetchBlockHash (db : BasicRpcDb) (number : UInt64) : Except RpcDbError B256 × BasicRpcDb :=
  match db.provider number with
  | .error text => (.error (.getBlockError number text), db)
  | .ok none => (.error (.blockNotFound number), db)
  | .ok (some block) => (.ok block.hash, { db with oldestAncestor := min number db.oldestAncestor })

/-- A sequence of requests, with the replies to them. -/
def fetchBlockHashes (db : BasicRpcDb) : List UInt64 → List (Except RpcDbError B256) × BasicRpcDb
  | [] => ([], db)
  | number :: rest =>
      let (reply, next) := db.fetchBlockHash number
      let (replies, last) := next.fetchBlockHashes rest
      (reply :: replies, last)

/-- The header of one ancestor. -/
def fetchHeader (db : BasicRpcDb) (height : UInt64) : Except RpcDbError Header :=
  match db.provider height with
  | .error text => .error (.transport text)
  | .ok none => .error (.blockNotFound height)
  | .ok (some block) => .ok block.rebuild

/-- `ancestor_headers`: from the block of the database down to the oldest ancestor. -/
def ancestorHeaders (db : BasicRpcDb) : Except RpcDbError (List Header) :=
  (countdown db.blockNumber (db.blockNumber.toNat + 1 - db.oldestAncestor.toNat)).mapM db.fetchHeader

end BasicRpcDb

/-- A provider that answers, up to a number, with a chain of headers: each has its own number, the
hash of what is rebuilt from it, and the hash of the one before it as that of its parent. -/
structure HonestChain (hashSlow : Header → B256) (provider : Provider) (chain : UInt64 → RpcHeader)
    (last : UInt64) : Prop where
  answers : ∀ n ≤ last, provider n = .ok (some (chain n))
  number : ∀ n ≤ last, (chain n).number = n
  hash : ∀ n ≤ last, (chain n).hash = hashSlow (chain n).rebuild
  parent : ∀ n < last, (chain (n + 1)).parentHash = (chain n).hash

section Countdown

theorem countdown_succ (last : UInt64) (count : Nat) :
    countdown last (count + 1) = last :: countdown (last - 1) count := by
  rw [countdown, List.range_succ_eq_map, List.map_cons, List.map_map, countdown]
  congr 1
  · exact UInt64.sub_zero last
  · apply List.map_congr_left
    intro i _
    rw [Function.comp_apply, Nat.succ_eq_add_one, UInt64.ofNat_add]
    grind

/-- The number before one that is not zero. -/
theorem toNat_pred {n : UInt64} (h : n.toNat ≠ 0) : (n - 1).toNat = n.toNat - 1 := by
  have hone : (1 : UInt64) ≤ n := by
    rw [UInt64.le_iff_toNat_le, UInt64.toNat_one]
    omega
  rw [UInt64.toNat_sub_of_le _ _ hone, UInt64.toNat_one]

theorem mem_countdown {last n : UInt64} {count : Nat} (h : count ≤ last.toNat + 1) :
    n ∈ countdown last count ↔ n ≤ last ∧ last.toNat < n.toNat + count := by
  induction count generalizing last with
  | zero =>
      apply iff_of_false (fun h => nomatch h)
      rintro ⟨hle, hlt⟩
      rw [UInt64.le_iff_toNat_le] at hle
      omega
  | succ count ih =>
      rw [countdown_succ, List.mem_cons]
      by_cases hzero : last.toNat = 0
      · obtain rfl : count = 0 := by omega
        rw [countdown, List.range_zero, List.map_nil, ← UInt64.toNat_inj, UInt64.le_iff_toNat_le]
        simp only [List.not_mem_nil, or_false]
        omega
      · have hpred := toNat_pred hzero
        rw [ih (by omega), ← UInt64.toNat_inj, UInt64.le_iff_toNat_le, UInt64.le_iff_toNat_le, hpred]
        omega

end Countdown

section Chain
variable {hashSlow : Header → B256} {provider : Provider} {chain : UInt64 → RpcHeader} {last : UInt64}

/-- The replies of an honest provider are hashes, and the oldest number is the least one asked for. -/
theorem HonestChain.fetchBlockHashes (hc : HonestChain hashSlow provider chain last) {requests : List UInt64}
    (hreq : ∀ n ∈ requests, n ≤ last) (blockNumber oldestAncestor : UInt64) :
    ∃ oldest, BasicRpcDb.fetchBlockHashes ⟨provider, blockNumber, oldestAncestor⟩ requests =
        (requests.map fun n => .ok (chain n).hash, ⟨provider, blockNumber, oldest⟩) ∧
      oldest ≤ oldestAncestor ∧ (∀ n ∈ requests, oldest ≤ n) ∧ (oldest = oldestAncestor ∨ oldest ∈ requests) := by
  induction requests generalizing oldestAncestor with
  | nil => exact ⟨oldestAncestor, rfl, UInt64.le_refl _, fun n hn => (nomatch hn), .inl rfl⟩
  | cons number rest ih =>
      obtain ⟨oldest, hrun, hle, hall, hmem⟩ :=
        ih (fun n hn => hreq n (List.mem_cons_of_mem _ hn)) (min number oldestAncestor)
      have hanswer := hc.answers number (hreq number List.mem_cons_self)
      refine ⟨oldest, ?_, UInt64.le_trans hle Std.min_le_right, ?_, ?_⟩
      · simp only [BasicRpcDb.fetchBlockHashes, BasicRpcDb.fetchBlockHash, hanswer, hrun, List.map_cons]
      · intro n hn
        rcases List.mem_cons.mp hn with rfl | hn
        · exact UInt64.le_trans hle Std.min_le_left
        · exact hall n hn
      · rcases hmem with rfl | hmem
        · rcases Std.min_eq_or (a := number) (b := oldestAncestor) with h | h
          · rw [h]
            exact .inr List.mem_cons_self
          · exact .inl h
        · exact .inr (List.mem_cons_of_mem _ hmem)

/-- Down a chain every check passes, and each header is entered under its number. -/
theorem HonestChain.checkHeaders (hc : HonestChain hashSlow provider chain last) {n : UInt64} {count : Nat}
    (hcount : count ≤ n.toNat + 1) (hn : n ≤ last) {child : SealedHeader} (hnumber : child.header.number - 1 = n)
    (hparent : child.header.parentHash = (chain n).hash) (blockHashes : HashMap UInt64 B256) :
    ∃ found, RethProcessor.checkHeaders blockHashes
        (child :: ((countdown n count).map fun k => (chain k).rebuild).map (.sealSlow hashSlow)) = .ok found ∧
      ∀ k, found.lookup k = if k ∈ countdown n count then some (chain k).hash else blockHashes.lookup k := by
  induction count generalizing n child blockHashes with
  | zero => exact ⟨blockHashes, rfl, fun k => (if_neg (fun h => nomatch h)).symm⟩
  | succ count ih =>
      have hchild : (chain n).rebuild.number = child.header.number - 1 := (hc.number n hn).trans hnumber.symm
      have hhash : hashSlow (chain n).rebuild = child.header.parentHash := (hc.hash n hn).symm.trans hparent.symm
      have hrest : ∃ found, RethProcessor.checkHeaders (blockHashes.insert n (chain n).hash)
          (.sealSlow hashSlow (chain n).rebuild ::
            ((countdown (n - 1) count).map fun k => (chain k).rebuild).map (.sealSlow hashSlow)) = .ok found ∧
          ∀ k, found.lookup k = if k ∈ countdown (n - 1) count then some (chain k).hash
            else (blockHashes.insert n (chain n).hash).lookup k := by
        by_cases hzero : count = 0
        · rw [hzero]
          exact ⟨_, rfl, fun k => (if_neg (fun h => nomatch h)).symm⟩
        · have hpred : (n - 1).toNat = n.toNat - 1 := toNat_pred (by omega)
          have hlast : n - 1 < last := by
            rw [UInt64.lt_iff_toNat_lt, hpred]
            have := UInt64.le_iff_toNat_le.mp hn
            omega
          have hlink := hc.parent (n - 1) hlast
          rw [UInt64.sub_add_cancel] at hlink
          exact ih (by omega) (UInt64.le_of_lt hlast) (congrArg (· - 1) (hc.number n hn)) hlink _
      obtain ⟨found, hfound, hlookup⟩ := hrest
      refine ⟨found, ?_, ?_⟩
      · have hinsert : blockHashes.insert (chain n).rebuild.number child.header.parentHash =
            blockHashes.insert n (chain n).hash := by
          rw [hchild, hnumber, hparent]
        rw [countdown_succ, List.map_cons, List.map_cons, checkHeaders_cons hchild hhash]
        exact (congrArg (fun hashes => RethProcessor.checkHeaders hashes _) hinsert).trans hfound
      · intro k
        simp only [hlookup, countdown_succ, List.mem_cons]
        by_cases hk : k ∈ countdown (n - 1) count
        · rw [if_pos hk, if_pos (.inr hk)]
        · rw [if_neg hk]
          by_cases hkn : k = n
          · rw [hkn, Finmap.lookup_insert, if_pos (.inl rfl)]
          · rw [Finmap.lookup_insert_of_ne _ hkn, if_neg (not_or.mpr ⟨hkn, hk⟩)]

theorem HonestChain.ancestorHeaders (hc : HonestChain hashSlow provider chain last) {oldest : UInt64}
    (hle : oldest ≤ last) : BasicRpcDb.ancestorHeaders ⟨provider, last, oldest⟩ =
      .ok ((countdown last (last.toNat - oldest.toNat + 1)).map fun n => (chain n).rebuild) := by
  have hcount : last.toNat + 1 - oldest.toNat = last.toNat - oldest.toNat + 1 :=
    Nat.sub_add_comm (UInt64.le_iff_toNat_le.mp hle)
  simp only [BasicRpcDb.ancestorHeaders, hcount]
  apply mapM_ok
  intro n hn
  have hmem := (mem_countdown (by omega)).mp hn
  simp only [BasicRpcDb.fetchHeader, hc.answers n hmem.1]

/-- What is recorded is replayed: the headers run from the block of the database down to the oldest
number requested, `witness_db` accepts them below a child of that block, and the database that
it returns answers every request as the host did. -/
theorem HonestChain.replays {Body : Type} {keccak : Bytes → B256} {codec : AccountCodec}
    (hc : HonestChain hashSlow provider chain last) {requests : List UInt64} (hreq : ∀ n ∈ requests, n ≤ last)
    {current : Header} (hnumber : current.number.toNat = last.toNat + 1)
    (hparent : current.parentHash = (chain last).hash) :
    ∃ replies db oldest headers blockHashes,
      (BasicRpcDb.new provider last).fetchBlockHashes requests = (replies, db) ∧
      (requests = [] → oldest = last) ∧ (requests ≠ [] → oldest ∈ requests) ∧ (∀ n ∈ requests, oldest ≤ n) ∧
      db.ancestorHeaders = .ok headers ∧
      headers = (countdown last (last.toNat - oldest.toNat + 1)).map (fun n => (chain n).rebuild) ∧
      RethProcessor.checkHeaders ∅ ((current :: headers).map (.sealSlow hashSlow)) = .ok blockHashes ∧
      ∀ (input : ClientExecutorInput Body) (storageTries : IteratedMap B256 MptNode),
        input.currentBlock.header = current → input.ancestorHeaders = headers →
        storageTries.toFinmap = input.parentState.storageTries →
        input.parentState.Accepted keccak codec (chain last).stateRoot →
        ∃ trieDb, witnessDb keccak codec input storageTries (input.sealedHeaders hashSlow) = .ok trieDb ∧
          List.Forall₂ (fun n reply => ∃ hash, reply = .ok hash ∧ trieDb.blockHashRef n = some hash)
            requests replies := by
  obtain ⟨oldest, hrun, hle, hall, hmem⟩ := hc.fetchBlockHashes hreq last last
  have hfirst : current.number - 1 = last := by
    have hpred : (current.number - 1).toNat = current.number.toNat - 1 := toNat_pred (by omega)
    rw [← UInt64.toNat_inj, hpred, hnumber, Nat.add_sub_cancel]
  have hcount : last.toNat - oldest.toNat + 1 ≤ last.toNat + 1 := by omega
  have hchild : (SealedHeader.sealSlow hashSlow current).header.number - 1 = last := hfirst
  obtain ⟨blockHashes, hcheck, hlookup⟩ := hc.checkHeaders hcount (UInt64.le_refl last) hchild hparent ∅
  refine ⟨_, _, oldest, _, blockHashes, hrun, ?_, ?_, hall, hc.ancestorHeaders hle, rfl, hcheck, ?_⟩
  · rintro rfl
    rcases hmem with h | h
    · exact h
    · cases h
  · intro hne
    obtain ⟨n, hn⟩ := List.exists_mem_of_ne_nil requests hne
    rcases hmem with rfl | h
    · have heq : oldest = n := UInt64.le_antisymm (hall n hn) (hreq n hn)
      exact heq ▸ hn
    · exact h
  · intro input storageTries hcurrent hancestors htries haccepted
    have hseal : input.sealedHeaders hashSlow = (current :: (countdown last (last.toNat - oldest.toNat + 1)).map
        fun n => (chain n).rebuild).map (.sealSlow hashSlow) := by
      rw [ClientExecutorInput.sealedHeaders, hcurrent, hancestors]
    refine ⟨⟨input.parentState, blockHashes, _⟩, (witnessDb_ok_iff htries).mpr ⟨?_, ?_, rfl, rfl⟩, ?_⟩
    · rw [hancestors, countdown_succ]
      exact ⟨_, rfl, haccepted⟩
    · rw [hseal]
      exact hcheck
    · rw [List.forall₂_map_right_iff, List.forall₂_same]
      intro n hn
      refine ⟨_, rfl, ?_⟩
      have hin : n ∈ countdown last (last.toNat - oldest.toNat + 1) := by
        have hmin := UInt64.le_iff_toNat_le.mp (hall n hn)
        have hmax := UInt64.le_iff_toNat_le.mp (hreq n hn)
        refine (mem_countdown hcount).mpr ⟨hreq n hn, ?_⟩
        omega
      rw [TrieDB.blockHashRef, hlookup, if_pos hin]

end Chain

section Sample

/-- A block of an empty state, with no more to it than its number and its parent. -/
def emptyBlock (number : UInt64) (parentHash hash : B256) : RpcHeader where
  hash := hash
  parentHash := parentHash
  ommersHash := B256.ZERO
  beneficiary := Address.ZERO
  stateRoot := EMPTY_ROOT
  transactionsRoot := B256.ZERO
  receiptsRoot := B256.ZERO
  logsBloom := 0
  difficulty := 0
  number := number
  gasLimit := 0
  gasUsed := 0
  timestamp := 0
  extraData := []
  mixHash := some B256.ZERO
  nonce := none
  baseFeePerGas := none
  withdrawalsRoot := none
  blobGasUsed := none
  excessBlobGas := none
  parentBeaconBlockRoot := none
  requestsHash := none

def firstHash : B256 :=
  ⟨[0x6f, 0x89, 0xa9, 0xd2, 0x98, 0x91, 0xf0, 0x9a, 0xea, 0x5c, 0x74, 0x41, 0x0c, 0xa0, 0xea, 0x07,
    0x05, 0xc0, 0x89, 0xe8, 0x1b, 0x2d, 0x58, 0x9e, 0x9b, 0x83, 0x92, 0x54, 0xce, 0x44, 0x63, 0xe4], rfl⟩

def secondHash : B256 :=
  ⟨[0x6f, 0xee, 0x4d, 0x4b, 0xe7, 0xf7, 0x7e, 0x2b, 0xbe, 0x34, 0x46, 0x95, 0x5d, 0xc5, 0xf5, 0x56,
    0xd8, 0xb6, 0x4c, 0x23, 0x4d, 0xae, 0x69, 0x3c, 0x35, 0x76, 0x74, 0x18, 0xf4, 0x55, 0x74, 0xd7], rfl⟩

def thirdHash : B256 :=
  ⟨[0x64, 0xe7, 0x39, 0x3a, 0xcc, 0xf2, 0x9e, 0x4d, 0x8c, 0x51, 0x2f, 0x7d, 0x13, 0xd3, 0xb4, 0x1c,
    0x7f, 0x89, 0xd2, 0x9c, 0xa6, 0x81, 0xea, 0x4e, 0xd1, 0xff, 0x25, 0x51, 0x9e, 0x97, 0xba, 0xae], rfl⟩

/-- The hashes of the headers of three blocks. -/
def threeHashes (header : Header) : B256 :=
  if header.number = 0 then firstHash else if header.number = 1 then secondHash else thirdHash

def threeBlocks (n : UInt64) : RpcHeader :=
  if n = 0 then emptyBlock 0 B256.ZERO firstHash
  else if n = 1 then emptyBlock 1 firstHash secondHash
  else emptyBlock 2 secondHash thirdHash

/-- The third of the blocks, with an empty state as its parent's. -/
def thirdInput (ancestorHeaders : List Header) : ClientExecutorInput Unit where
  currentBlock := ⟨(threeBlocks 2).rebuild, ()⟩
  ancestorHeaders := ancestorHeaders
  parentState := ⟨default, ∅⟩
  bytecodes := []
  genesis := .mainnet
  customBeneficiary := none
  opcodeTracking := false

theorem honestChain_threeBlocks :
    HonestChain threeHashes (fun n => .ok (some (threeBlocks n))) threeBlocks 1 := by
  have hcases {n : UInt64} (hn : n ≤ 1) : n = 0 ∨ n = 1 := by
    rw [UInt64.le_iff_toNat_le, UInt64.toNat_one] at hn
    rw [← UInt64.toNat_inj, ← UInt64.toNat_inj, UInt64.toNat_zero, UInt64.toNat_one]
    omega
  refine ⟨fun n _ => rfl, ?_, ?_, ?_⟩
  · intro n hn
    rcases hcases hn with rfl | rfl
    · rfl
    · rfl
  · intro n hn
    rcases hcases hn with rfl | rfl
    · rfl
    · rfl
  · intro n hn
    rw [UInt64.lt_iff_toNat_lt, UInt64.toNat_one, Nat.lt_one_iff] at hn
    obtain rfl : n = 0 := UInt64.toNat_inj.mp hn
    rfl

theorem replays_threeBlocks : ∃ replies db headers trieDb,
    (BasicRpcDb.new (fun n => .ok (some (threeBlocks n))) 1).fetchBlockHashes [1, 0] = (replies, db) ∧
    db.ancestorHeaders = .ok headers ∧ headers = [(threeBlocks 1).rebuild, (threeBlocks 0).rebuild] ∧
    witnessDb slotKeccak rlpCodec (thirdInput headers) ∅ ((thirdInput headers).sealedHeaders threeHashes) =
      .ok trieDb ∧
    List.Forall₂ (fun n reply => ∃ hash, reply = .ok hash ∧ trieDb.blockHashRef n = some hash) [1, 0] replies := by
  have hreq : ∀ n ∈ ([1, 0] : List UInt64), n ≤ 1 := by
    intro n hn
    rcases List.mem_pair.mp hn with rfl | rfl
    · exact UInt64.le_refl 1
    · exact UInt64.zero_le
  obtain ⟨replies, db, oldest, headers, blockHashes, hrun, -, -, hle, hheaders, hdown, -, hinput⟩ :=
    @HonestChain.replays _ _ _ _ Unit slotKeccak rlpCodec honestChain_threeBlocks _ hreq (threeBlocks 2).rebuild rfl rfl
  obtain rfl : oldest = 0 := UInt64.toNat_inj.mp (Nat.le_zero.mp (UInt64.le_iff_toNat_le.mp (hle 0 (by decide))))
  obtain ⟨trieDb, hdb, hreplies⟩ := hinput (thirdInput headers) ∅ rfl rfl rfl
    ⟨rfl, fun h hmem => absurd hmem (Finmap.notMem_empty)⟩
  exact ⟨replies, db, headers, trieDb, hrun, hheaders, hdown, hdb, hreplies⟩

end Sample

end RethProcessor
