import RethProcessor.Commands
import RethProcessor.InputCache
import RethProcessor.World

/-! The executors of blocks. They take the input of the guest from the host or from a file, hand it to
the zkVM and report to hooks; a run can stop at every step, and within the writing of a file. -/
namespace RethProcessor

/-- The configurations that the binaries make: the network of the chain id, or a genesis file. -/
def Config.Configured (config : Config) : Prop :=
  Genesis.tryFrom config.chainId = .ok config.genesis ∨ ∃ json, config.genesis = .custom json

/-- A host that returns for no genesis without a known chain id, which the code unwraps. -/
def HostExecutor.KnowsChains {Body : Type} (host : HostExecutor Body) : Prop :=
  ∀ {blockNumber genesis customBeneficiary outcome}, host.outcome blockNumber genesis customBeneficiary = some outcome →
    ∃ chainId, genesis.chainId = .ok chainId

namespace Full
open Commands

/-- `bincode`, which reads an input from the front of what it is given and leaves the rest. Where it
reads what was written, it reads all of it. -/
structure StreamCodec (Body : Type) where
  serialize : ClientExecutorInput Body → Bytes
  deserializeFrom : Bytes → Option (ClientExecutorInput Body × Bytes)
  deserializeFrom_append : ∀ {bytes input rest}, deserializeFrom bytes = some (input, rest) →
    ∀ more, deserializeFrom (bytes ++ more) = some (input, rest ++ more)
  deserializeFrom_serialize : ∀ {input loaded rest}, deserializeFrom (serialize input) = some (loaded, rest) →
    loaded = input ∧ rest = []

def StreamCodec.toInputCodec {Body : Type} (codec : StreamCodec Body) : InputCodec Body Bytes where
  serialize := codec.serialize
  deserialize bytes := (codec.deserializeFrom bytes).map Prod.fst
  eq_of_deserialize {input loaded} h := by
    obtain ⟨⟨read, rest⟩, hread, rfl⟩ := Option.map_eq_some_iff.mp h
    exact (codec.deserializeFrom_serialize hread).1

/-- The calls of the hooks. -/
inductive Event (Body Proof Report : Type) where
  | executionStart (blockNumber : UInt64)
  | provingStart (blockNumber : UInt64)
  | provingEnd (blockNumber : UInt64) (proof : Proof) (publicValues : List B256) (cycles : UInt64)
  | executionEnd (block : Block Body) (report : Report)

/-- The kinds of these calls. -/
inductive Stage where
  | executionStart
  | provingStart
  | provingEnd
  | executionEnd
  deriving DecidableEq

def Event.stage {Body Proof Report : Type} : Event Body Proof Report → Stage
  | executionStart _ => .executionStart
  | provingStart _ => .provingStart
  | provingEnd _ _ _ _ => .provingEnd
  | executionEnd _ _ => .executionEnd

/-- Why a run stops. -/
inductive Failure where
  | hook (text : String)
  | host
  | file
  | deserialize
  | noCachedInput
  | prover (text : String)
  | panic

/-- What a run meets with outside: the host, as it answers this time, the hooks and the prover, the hash
of the program, whether a full executor was made in its process, whether the file of the input can be
created, and after how many bytes the writing of it breaks off, if it does. -/
structure Outside (Body Proof Report : Type) where
  host : HostExecutor Body
  hook : Event Body Proof Report → Except String Unit
  prove : Bytes → String → Except String (Proof × List B256 × UInt64)
  execute : Bytes → Except String (List B256 × Report)
  elfHash : String
  madeFull : Bool
  createFile : Bool
  brokenOff : Option Nat

/-- A call of `FullExecutor::execute` or of `CachedExecutor::execute`. -/
inductive Job where
  | full (run : Run) (proveMode : Bool)
  | cached (path : CachePath) (proveMode : Bool)

def Job.blockNumber : Job → UInt64
  | full run _ => run.blockNumber
  | cached path _ => path.blockNumber

def Job.chainId : Job → UInt64
  | full run _ => run.config.chainId
  | cached path _ => path.chainId

/-- `ELF_ID`, which is set where a full executor is made, and nowhere else. -/
def Outside.elfId {Body Proof Report : Type} (outside : Outside Body Proof Report) : Job → Option String
  | .full _ _ => some outside.elfHash
  | .cached _ _ => if outside.madeFull then some outside.elfHash else none

def Job.proveMode : Job → Bool
  | full _ proveMode => proveMode
  | cached _ proveMode => proveMode

/-- The calls of the hooks for a job, in their order. -/
def Job.stages : Job → List Stage
  | full _ true => [.executionStart, .provingStart, .provingEnd]
  | full _ false => [.executionStart, .executionEnd]
  | cached _ true => [.provingStart, .provingEnd]
  | cached _ false => [.executionEnd]

/-- The files of the cache, and the calls of the hooks so far. -/
structure Store (Body Proof Report : Type) where
  files : Files Bytes
  log : List (Job × Event Body Proof Report)

section Execute
variable {Body Proof Report : Type} (codec : InputCodec Body Bytes) (outside : Outside Body Proof Report)

def callHook (job : Job) (event : Event Body Proof Report) : EStateM Failure (Store Body Proof Report) Unit := do
  modify fun store => { store with log := store.log ++ [(job, event)] }
  match outside.hook event with
  | .ok () => pure ()
  | .error text => throw (.hook text)

/-- The writing of an input. The file is created empty, and holds what has been written when this breaks off. -/
def writeInput (path : CachePath) (bytes : Bytes) : EStateM Failure (Store Body Proof Report) Unit :=
  match outside.createFile, outside.brokenOff with
  | false, _ => throw .file
  | true, none => modify fun store => { store with files := Function.update store.files path (some bytes) }
  | true, some n => do
      modify fun store => { store with files := Function.update store.files path (some (bytes.take n)) }
      throw .file

/-- The input for a run of the full executor: from the cache, or from the host. -/
def obtainInput (run : Run) : EStateM Failure (Store Body Proof Report) (ClientExecutorInput Body) := do
  let store ← get
  match clientInputFromCache codec store.files run with
  | some cached => pure { cached with opcodeTracking := run.config.opcodeTracking }
  | none =>
      match hostInput outside.host run with
      | none => throw .host
      | some input =>
          match run.config.cacheDir with
          | none => pure input
          | some cacheDir => do
              writeInput outside ⟨cacheDir, run.config.chainId, run.blockNumber⟩ (codec.serialize input)
              pure input

/-- `process_client`. -/
def processClient (job : Job) (input : ClientExecutorInput Body) : EStateM Failure (Store Body Proof Report) Unit := do
  let buffer := codec.serialize input
  match job.proveMode with
  | true =>
      callHook outside job (.provingStart input.currentBlock.header.number)
      match outside.elfId job with
      | none => throw .panic
      | some elfId =>
          match outside.prove buffer elfId with
          | .error text => throw (.prover text)
          | .ok (proof, publicValues, cycles) =>
              callHook outside job (.provingEnd input.currentBlock.header.number proof publicValues cycles)
  | false =>
      match outside.execute buffer with
      | .error text => throw (.prover text)
      | .ok ([], _) => throw .panic
      | .ok (_ :: _, report) => callHook outside job (.executionEnd input.currentBlock report)

/-- `execute` of the two executors. The one over the cache does not report the start, fails on a file
that it cannot read, and takes the opcode tracking from the file. -/
def execute : Job → EStateM Failure (Store Body Proof Report) Unit
  | .full run proveMode => do
      callHook outside (.full run proveMode) (.executionStart run.blockNumber)
      let input ← obtainInput codec outside run
      processClient codec outside (.full run proveMode) input
  | .cached path proveMode => do
      let store ← get
      match tryLoadInputFromCache codec store.files path with
      | .error () => throw .deserialize
      | .ok none => throw .noCachedInput
      | .ok (some input) => processClient codec outside (.cached path proveMode) input

/-- The store after some jobs, each of which may have failed, from an empty one. -/
def storeAfter (jobs : List (Job × Outside Body Proof Report)) : Store Body Proof Report :=
  leavesAll (jobs.map fun job => execute codec job.2 job.1) ⟨fun _ => none, []⟩

end Execute

/-- The program of the zkVM, for an order in which it visits the storage tries of a state. -/
structure Guest (Body Sender Output E Other : Type) where
  reth : Reth Body Sender Output E Other
  keccak : Bytes → B256
  accountCodec : AccountCodec
  decodeSlot : Bytes → Option U256
  hashSlow : Header → B256
  files : Genesis.Files
  order : EthereumState → IteratedMap B256 MptNode

section Guest
variable {Body Sender Output E Other Proof Report : Type} (guest : Guest Body Sender Output E Other)
  (codec : InputCodec Body Bytes)

def Guest.verify (input : ClientExecutorInput Body) : Except (ExecuteFailure E Other) (B256 × B256 × B256) :=
  verifyBlock guest.reth guest.keccak guest.accountCodec guest.decodeSlot guest.hashSlow guest.files input
    (guest.order input.parentState)

/-- `main` of the guest, with the public values that it commits, unless it panics. -/
def Guest.main (stdin : Bytes) : Option (List B256) :=
  match codec.deserialize stdin with
  | none => none
  | some input =>
      match guest.verify input with
      | .error _ => none
      | .ok (blockHash, _, _) => some [blockHash]

/-- The guest verifies an input, and commits to the hash of its block. -/
structure Guest.Accepts (input : ClientExecutorInput Body) (publicValues : List B256) : Prop where
  verified : guest.verify input = .ok (guest.hashSlow input.currentBlock.header, input.currentBlock.header.stateRoot,
    input.parentState.stateRoot guest.keccak)
  committed : publicValues = [guest.hashSlow input.currentBlock.header]

/-- A zkVM that runs the guest: it executes and proves nothing on which the guest panics. -/
structure Outside.RunsGuest (outside : Outside Body Proof Report) : Prop where
  execute : ∀ stdin publicValues report, outside.execute stdin = .ok (publicValues, report) →
    guest.main codec stdin = some publicValues
  prove : ∀ stdin elfId proof publicValues cycles, outside.prove stdin elfId = .ok (proof, publicValues, cycles) →
    guest.main codec stdin = some publicValues

variable (accepts : ClientExecutorInput Body → List B256 → Prop)

/-- A prover that returns nothing on an input but what is accepted of it. -/
structure Outside.Checks (outside : Outside Body Proof Report) : Prop where
  execute : ∀ input publicValues report, outside.execute (codec.serialize input) = .ok (publicValues, report) →
    accepts input publicValues
  prove : ∀ input elfId proof publicValues cycles,
    outside.prove (codec.serialize input) elfId = .ok (proof, publicValues, cycles) → accepts input publicValues

/-- The file of a run. -/
def cachePath (run : Run) : Option CachePath :=
  run.config.cacheDir.map fun cacheDir => ⟨cacheDir, run.config.chainId, run.blockNumber⟩

/-- What the host has made for a run in a job of a history. -/
def MadeIn (jobs : List (Job × Outside Body Proof Report)) (run : Run) (input : ClientExecutorInput Body) : Prop :=
  ∃ (outside : Outside Body Proof Report) (proveMode : Bool), (.full run proveMode, outside) ∈ jobs ∧
    hostInput outside.host run = some input

variable (made : Run → ClientExecutorInput Body → Prop)

/-- An input that was made for the block and the chain of a job, but for the opcode tracking. -/
def SuitsJob (job : Job) (input : ClientExecutorInput Body) : Prop :=
  ∃ run found opcodeTracking, made run found ∧ run.blockNumber = job.blockNumber ∧ run.config.chainId = job.chainId ∧
    input = { found with opcodeTracking := opcodeTracking }

/-- An input for a job: the host has made it in a job of the history, when it was asked for the block
of the job, under a genesis with the chain id of the job. -/
structure MadeFor (jobs : List (Job × Outside Body Proof Report)) (job : Job) (input : ClientExecutorInput Body) :
    Prop where
  made : SuitsJob (MadeIn jobs) job input
  chain : input.genesis.chainId = .ok job.chainId

/-- What a call of a hook says of its job, for which there are certain inputs. -/
def Vouched (inputs : ClientExecutorInput Body → Prop) (job : Job) : Event Body Proof Report → Prop
  | .executionStart blockNumber => blockNumber = job.blockNumber
  | .provingStart blockNumber => ∃ input, inputs input ∧ input.currentBlock.header.number = blockNumber
  | .provingEnd blockNumber _ publicValues _ => ∃ input, inputs input ∧ accepts input publicValues ∧
      input.currentBlock.header.number = blockNumber
  | .executionEnd block _ => ∃ input publicValues, inputs input ∧ accepts input publicValues ∧ input.currentBlock = block

/-- Every file is the front of an input that was made for it, and every call of a hook is vouched for. -/
structure Sound (store : Store Body Proof Report) : Prop where
  files : ∀ path file, store.files path = some file → ∃ run input, made run input ∧ cachePath run = some path ∧
    file <+: codec.serialize input
  log : ∀ entry ∈ store.log, Vouched accepts (SuitsJob made entry.1) entry.1 entry.2

end Guest

section Sound
variable {Body Sender Output E Other Proof Report : Type} {guest : Guest Body Sender Output E Other}
  {codec : StreamCodec Body} {outside : Outside Body Proof Report} {store : Store Body Proof Report}
  {accepts : ClientExecutorInput Body → List B256 → Prop} {made : Run → ClientExecutorInput Body → Prop}
  {jobs : List (Job × Outside Body Proof Report)}

/-- The guest accepts an input when it runs through on what is serialized of it. -/
theorem Guest.accepts_of_main {codec : InputCodec Body Bytes} {input : ClientExecutorInput Body}
    {publicValues : List B256} (h : guest.main codec (codec.serialize input) = some publicValues) :
    guest.Accepts input publicValues := by
  unfold Guest.main at h
  split at h
  · cases h
  · next loaded hloaded =>
      obtain rfl := codec.eq_of_deserialize hloaded
      split at h
      · cases h
      · next blockHash stateRoot prevStateRoot hverify =>
          obtain ⟨hresult, -⟩ := verifyBlock_ok_iff.mp hverify
          obtain rfl := Option.some.inj h
          rw [Prod.mk.injEq] at hresult
          refine ⟨?_, ?_⟩
          · rw [hverify, hresult.1, hresult.2]
          · rw [hresult.1]

/-- A front of an input that can be read is the whole of it. -/
theorem StreamCodec.eq_of_front {input loaded : ClientExecutorInput Body} {file : Bytes}
    (hfront : file <+: codec.serialize input) (h : codec.toInputCodec.deserialize file = some loaded) :
    loaded = input ∧ file = codec.serialize input := by
  obtain ⟨more, hmore⟩ := hfront
  obtain ⟨⟨read, rest⟩, hread, rfl⟩ := Option.map_eq_some_iff.mp h
  have hwhole := codec.deserializeFrom_append hread more
  rw [hmore] at hwhole
  obtain ⟨rfl, hrest⟩ := codec.deserializeFrom_serialize hwhole
  obtain rfl := (List.append_eq_nil_iff.mp hrest).2
  rw [List.append_nil] at hmore
  exact ⟨rfl, hmore⟩

theorem cachePath_some {run : Run} {path : CachePath} (h : cachePath run = some path) :
    run.blockNumber = path.blockNumber ∧ run.config.chainId = path.chainId := by
  obtain ⟨cacheDir, -, rfl⟩ := Option.map_eq_some_iff.mp h
  exact ⟨rfl, rfl⟩

theorem tryLoad_ok_some {files : Files Bytes} {path : CachePath} {input : ClientExecutorInput Body}
    (h : tryLoadInputFromCache codec.toInputCodec files path = .ok (some input)) :
    ∃ file, files path = some file ∧ codec.toInputCodec.deserialize file = some input := by
  unfold tryLoadInputFromCache at h
  split at h
  · cases h
  · next file hfile =>
      split at h
      · next loaded hloaded =>
          obtain rfl := Option.some.inj (Except.ok.inj h)
          exact ⟨file, hfile, hloaded⟩
      · cases h

/-- What is read from a file was made for it, and the file is not torn. -/
theorem Sound.loaded (h : Sound codec.toInputCodec accepts made store) {path : CachePath}
    {input : ClientExecutorInput Body}
    (hload : tryLoadInputFromCache codec.toInputCodec store.files path = .ok (some input)) :
    store.files path = some (codec.serialize input) ∧ ∃ run, made run input ∧ cachePath run = some path := by
  obtain ⟨file, hfile, hread⟩ := tryLoad_ok_some hload
  obtain ⟨run, whole, hmade, hpath, hfront⟩ := h.files path file hfile
  obtain ⟨rfl, rfl⟩ := StreamCodec.eq_of_front hfront hread
  exact ⟨hfile, run, hmade, hpath⟩

/-- What a run finds in the cache was made for its file. -/
theorem Sound.found (h : Sound codec.toInputCodec accepts made store) {run : Run} {cached : ClientExecutorInput Body}
    (hfound : clientInputFromCache codec.toInputCodec store.files run = some cached) :
    ∃ other, made other cached ∧ cachePath other = cachePath run ∧ other.blockNumber = run.blockNumber ∧
      other.config.chainId = run.config.chainId := by
  obtain ⟨cacheDir, hdir, hload⟩ := Option.bind_eq_some_iff.mp hfound
  split at hload
  · next input hinput =>
      rw [hload] at hinput
      obtain ⟨-, other, hmade, hpath⟩ := h.loaded hinput
      have hrun : cachePath run = some ⟨cacheDir, run.config.chainId, run.blockNumber⟩ := by
        rw [cachePath, hdir, Option.map_some]
      exact ⟨other, hmade, hpath.trans hrun.symm, cachePath_some hpath⟩
  · cases hload

theorem Sound.callHook (h : Sound codec.toInputCodec accepts made store) {job : Job} {event : Event Body Proof Report}
    (hevent : Vouched accepts (SuitsJob made job) job event) :
    Ensures (callHook outside job event) store (Sound codec.toInputCodec accepts made) fun _ _ => True := by
  have hlog : Sound codec.toInputCodec accepts made { store with log := store.log ++ [(job, event)] } := by
    refine ⟨h.files, ?_⟩
    intro entry hentry
    rcases List.mem_append.mp hentry with hentry | hentry
    · exact h.log entry hentry
    · rw [List.mem_singleton.mp hentry]
      exact hevent
  refine (ensures_modify hlog).bind ?_
  intro _ s hs _
  split
  · exact ensures_pure hs trivial
  · exact ensures_throw hs

theorem Sound.writeInput (h : Sound codec.toInputCodec accepts made store) {run : Run} {path : CachePath}
    {input : ClientExecutorInput Body} (hmade : made run input) (hpath : cachePath run = some path) :
    Ensures (writeInput outside path (codec.serialize input)) store (Sound codec.toInputCodec accepts made)
      fun _ _ => True := by
  have hfile {file : Bytes} (hfront : file <+: codec.serialize input) :
      Sound codec.toInputCodec accepts made { store with files := Function.update store.files path (some file) } := by
    refine ⟨?_, h.log⟩
    intro p found hfound
    dsimp only at hfound
    by_cases hp : p = path
    · rw [hp, Function.update_self, Option.some.injEq] at hfound
      exact ⟨run, input, hmade, hp ▸ hpath, hfound ▸ hfront⟩
    · rw [Function.update_of_ne hp] at hfound
      exact h.files p found hfound
  unfold Full.writeInput
  split
  · exact ensures_throw h
  · exact (ensures_modify (hfile (List.prefix_refl _))).mono (fun _ hs => hs) fun _ _ _ _ => trivial
  · next n hcreate hbroken =>
      refine (ensures_modify (hfile (List.take_prefix n _))).bind ?_
      intro _ s hs _
      exact ensures_throw hs

/-- A run is handed what it finds, with its own opcode tracking, or what its host makes, and calls no hook. -/
theorem obtainInput_handed {codec : InputCodec Body Bytes} (run : Run) :
    Ensures (obtainInput codec outside run) store (fun s => s.log = store.log) fun input _ =>
      match clientInputFromCache codec store.files run with
      | some cached => input = { cached with opcodeTracking := run.config.opcodeTracking }
      | none => hostInput outside.host run = some input := by
  refine (ensures_get (I := fun s : Store Body Proof Report => s.log = store.log) rfl).bind ?_
  rintro _ s hs ⟨rfl, rfl⟩
  split
  · exact ensures_pure hs rfl
  · split
    · exact ensures_throw hs
    · next input hinput =>
        split
        · exact ensures_pure hs hinput
        · refine Ensures.bind (Q := fun _ _ => True) ?_ fun _ s' hs' _ => ensures_pure hs' hinput
          unfold writeInput
          split
          · exact ensures_throw hs
          · exact (ensures_modify hs).mono (fun _ h => h) fun _ _ _ _ => trivial
          · exact (ensures_modify hs).bind fun _ s' hs' _ => ensures_throw hs'

theorem Sound.obtainInput (h : Sound codec.toInputCodec accepts made store) {run : Run}
    (hmade : ∀ input, hostInput outside.host run = some input → made run input) :
    Ensures (obtainInput codec.toInputCodec outside run) store (Sound codec.toInputCodec accepts made) fun _ _ => True := by
  refine (ensures_get h).bind ?_
  rintro _ s hs ⟨rfl, rfl⟩
  split
  · exact ensures_pure hs trivial
  · split
    · exact ensures_throw hs
    · next input hinput =>
        split
        · exact ensures_pure hs trivial
        · next cacheDir hdir =>
            have hpath : cachePath run = some ⟨cacheDir, run.config.chainId, run.blockNumber⟩ := by
              rw [cachePath, hdir, Option.map_some]
            refine (hs.writeInput (hmade input hinput) hpath).bind ?_
            intro _ s' hs' _
            exact ensures_pure hs' trivial

theorem Sound.processClient (h : Sound codec.toInputCodec accepts made store)
    (hrun : outside.Checks codec.toInputCodec accepts) {job : Job} {input : ClientExecutorInput Body}
    (hmade : SuitsJob made job input) :
    Ensures (processClient codec.toInputCodec outside job input) store (Sound codec.toInputCodec accepts made)
      fun _ _ => True := by
  unfold Full.processClient
  cases job.proveMode with
  | true =>
      have hstart : Vouched accepts (SuitsJob made job) job (.provingStart input.currentBlock.header.number :
          Event Body Proof Report) := ⟨input, hmade, rfl⟩
      refine (h.callHook hstart).bind ?_
      intro _ s hs _
      split
      · exact ensures_throw hs
      · split
        · exact ensures_throw hs
        · next proof publicValues cycles hproof =>
            have haccepts := hrun.prove _ _ _ _ _ hproof
            have hend : Vouched accepts (SuitsJob made job) job
                (.provingEnd input.currentBlock.header.number proof publicValues cycles : Event Body Proof Report) :=
              ⟨input, hmade, haccepts, rfl⟩
            exact hs.callHook hend
  | false =>
      dsimp only
      split
      · exact ensures_throw h
      · exact ensures_throw h
      · next value values report hreport =>
          have haccepts := hrun.execute _ _ _ hreport
          have hend : Vouched accepts (SuitsJob made job) job (.executionEnd input.currentBlock report :
              Event Body Proof Report) := ⟨input, _, hmade, haccepts, rfl⟩
          exact h.callHook hend

theorem Sound.execute (h : Sound codec.toInputCodec accepts made store)
    (hrun : outside.Checks codec.toInputCodec accepts) {job : Job}
    (hmade : ∀ run proveMode input, job = .full run proveMode → hostInput outside.host run = some input → made run input) :
    Ensures (execute codec.toInputCodec outside job) store (Sound codec.toInputCodec accepts made) fun _ _ => True := by
  cases job with
  | full run proveMode =>
      have hstart : Vouched accepts (SuitsJob made (.full run proveMode)) (.full run proveMode)
          (.executionStart run.blockNumber : Event Body Proof Report) := rfl
      refine (h.callHook hstart).bind ?_
      intro _ s hs _
      have hhost (input : ClientExecutorInput Body) (hinput : hostInput outside.host run = some input) :=
        hmade run proveMode input rfl hinput
      refine (((hs.obtainInput hhost).and (obtainInput_handed run)).mono (fun _ h => h.1) fun _ _ _ h => h.2).bind ?_
      intro input s' hs' hinput
      refine hs'.processClient hrun ?_
      split at hinput
      · next cached hcached =>
          obtain ⟨other, hother, -, hblock, hchain⟩ := hs.found hcached
          exact ⟨other, cached, run.config.opcodeTracking, hother, hblock, hchain, hinput⟩
      · exact ⟨run, input, input.opcodeTracking, hhost input hinput, rfl, rfl, rfl⟩
  | cached path proveMode =>
      refine (ensures_get h).bind ?_
      rintro _ s hs ⟨rfl, rfl⟩
      split
      · exact ensures_throw hs
      · exact ensures_throw hs
      · next input hinput =>
          obtain ⟨-, run, hrunMade, hpath⟩ := hs.loaded hinput
          obtain ⟨hblock, hchain⟩ := cachePath_some hpath
          have hjob : SuitsJob made (.cached path proveMode) input :=
            ⟨run, input, input.opcodeTracking, hrunMade, hblock, hchain, rfl⟩
          exact hs.processClient hrun hjob

theorem sound_storeAfter (h : ∀ job ∈ jobs, job.2.Checks codec.toInputCodec accepts) :
    Sound codec.toInputCodec accepts (MadeIn jobs) (storeAfter codec.toInputCodec jobs) := by
  have hempty : Sound codec.toInputCodec accepts (MadeIn jobs) (⟨fun _ => none, []⟩ : Store Body Proof Report) :=
    ⟨fun _ _ hfile => (nomatch hfile), List.forall_mem_nil _⟩
  refine leavesAll_keeps ?_ hempty
  intro x hx s hs
  obtain ⟨⟨job, outside⟩, hjob, rfl⟩ := List.mem_map.mp hx
  refine hs.execute (h _ hjob) ?_
  rintro run proveMode input rfl hinput
  exact ⟨outside, proveMode, hjob, hinput⟩

/-- Whatever the provers return, every file is the front of an input that was made for it. -/
theorem sound_files (codec : StreamCodec Body) (jobs : List (Job × Outside Body Proof Report)) :
    Sound codec.toInputCodec (fun _ _ => True) (MadeIn jobs) (storeAfter codec.toInputCodec jobs) :=
  sound_storeAfter fun _ _ => ⟨fun _ _ _ _ => trivial, fun _ _ _ _ _ _ => trivial⟩

/-- The host makes of a block the same input for all configurations with its genesis and its
beneficiary, but for the opcode tracking. -/
theorem hostInput_of_same {host : HostExecutor Body} {run other : Run} {input : ClientExecutorInput Body}
    (hmade : hostInput host other = some input) (hblock : other.blockNumber = run.blockNumber)
    (hgenesis : input.genesis = run.config.genesis) (hbeneficiary : input.customBeneficiary = run.config.customBeneficiary) :
    hostInput host run = some { input with opcodeTracking := run.config.opcodeTracking } := by
  obtain ⟨outcome, houtcome, rfl⟩ := Option.map_eq_some_iff.mp hmade
  rw [hostInput, HostExecutor.execute, ← hblock, ← hgenesis, ← hbeneficiary, houtcome]
  rfl

/-- The hosts that an input for a run may come from: its own, and those of the earlier jobs of full
executors over the file of the run. -/
def Sources (jobs : List (Job × Outside Body Proof Report)) (outside : Outside Body Proof Report) (run : Run)
    (host : HostExecutor Body) : Prop :=
  host = outside.host ∨ ∃ (other : Run) (proveMode : Bool) (before : Outside Body Proof Report),
    (.full other proveMode, before) ∈ jobs ∧ cachePath other = cachePath run ∧ host = before.host

/-- What a run finds, made for its own configuration, is what the host of an earlier job makes for the run. -/
theorem Sound.found_fresh (h : Sound codec.toInputCodec accepts (MadeIn jobs) store) {run : Run}
    (hfresh : Fresh codec.toInputCodec store.files run) {cached : ClientExecutorInput Body}
    (hfound : clientInputFromCache codec.toInputCodec store.files run = some cached) :
    ∃ host, Sources jobs outside run host ∧
      hostInput host run = some { cached with opcodeTracking := run.config.opcodeTracking } := by
  obtain ⟨other, ⟨before, proveMode, hjob, hmade⟩, hpath, hblock, -⟩ := h.found hfound
  obtain ⟨hgenesis, hbeneficiary⟩ := hfresh cached hfound
  exact ⟨before.host, .inr ⟨other, proveMode, before, hjob, hpath, rfl⟩,
    hostInput_of_same hmade hblock hgenesis hbeneficiary⟩

/-- An input of a host for the own configuration is all that a run can be handed exactly when it loads
nothing that was made for another genesis or another beneficiary. -/
theorem handed_iff (codec : StreamCodec Body) (jobs : List (Job × Outside Body Proof Report)) (run : Run) :
    (∀ (outside : Outside Body Proof Report) input store,
        obtainInput codec.toInputCodec outside run (storeAfter codec.toInputCodec jobs) = .ok input store →
          ∃ host, Sources jobs outside run host ∧ hostInput host run = some input) ↔
      Fresh codec.toInputCodec (storeAfter codec.toInputCodec jobs).files run := by
  constructor
  · intro h cached hcached
    let outside : Outside Body Proof Report :=
      ⟨⟨fun _ _ _ => none⟩, fun _ => .ok (), fun _ _ => .error "", fun _ => .error "", "", true, false, none⟩
    have hobtained : obtainInput codec.toInputCodec outside run (storeAfter codec.toInputCodec jobs) =
        .ok { cached with opcodeTracking := run.config.opcodeTracking } (storeAfter codec.toInputCodec jobs) := by
      change (match clientInputFromCache codec.toInputCodec (storeAfter codec.toInputCodec jobs).files run with
        | some _ => _
        | none => _ : EStateM Failure (Store Body Proof Report) (ClientExecutorInput Body)) _ = _
      rw [hcached]
      rfl
    obtain ⟨host, -, hinput⟩ := h outside _ _ hobtained
    obtain ⟨-, -, hgenesis, hbeneficiary, -⟩ := hostInput_eq_some hinput
    exact ⟨hgenesis, hbeneficiary⟩
  · intro hfresh outside input store hobtained
    obtain ⟨-, hinput⟩ := (obtainInput_handed run).of_ok hobtained
    split at hinput
    · next cached hcached =>
        rw [hinput]
        exact (sound_files codec jobs).found_fresh hfresh hcached
    · exact ⟨outside.host, .inl rfl, hinput⟩

/-- Whatever has failed or was broken off before, a run is handed an input that its own host, or the
one of an earlier job over its file, makes for its own configuration exactly when nothing is loaded that
was made for another genesis or another beneficiary; and no file that is read is torn. -/
theorem obtained_iff_fresh (codec : StreamCodec Body) (jobs : List (Job × Outside Body Proof Report)) (run : Run) :
    ((∀ (outside : Outside Body Proof Report) input store,
        obtainInput codec.toInputCodec outside run (storeAfter codec.toInputCodec jobs) = .ok input store →
          ∃ host, Sources jobs outside run host ∧ hostInput host run = some input) ↔
      Fresh codec.toInputCodec (storeAfter codec.toInputCodec jobs).files run) ∧
    ∀ path loaded, tryLoadInputFromCache codec.toInputCodec (storeAfter codec.toInputCodec jobs).files path =
        .ok (some loaded) →
      (storeAfter codec.toInputCodec jobs).files path = some (codec.serialize loaded) ∧
        ∃ other, MadeIn jobs other loaded ∧ cachePath other = some path :=
  ⟨handed_iff codec jobs run, fun _ _ hload => (sound_files codec jobs).loaded hload⟩

/-- Where nothing fails outside, a run comes to the input and the files that the cache is described by. -/
theorem obtainInput_calm {codec : InputCodec Body Bytes} (hcreate : outside.createFile = true)
    (hbroken : outside.brokenOff = none) (run : Run) : obtainInput codec outside run store =
      match RethProcessor.execute outside.host codec store.files run with
      | (some input, files) => .ok input { store with files := files }
      | (none, _) => .error .host store := by
  change (match clientInputFromCache codec store.files run with | some _ => _ | none => _ :
    EStateM Failure (Store Body Proof Report) (ClientExecutorInput Body)) store = _
  rw [RethProcessor.execute]
  cases clientInputFromCache codec store.files run with
  | some cached => rfl
  | none =>
      cases hostInput outside.host run with
      | none => rfl
      | some input =>
          cases run.config.cacheDir with
          | none => rfl
          | some cacheDir =>
              simp only [writeInput, hcreate, hbroken]
              rfl

/-- Where nothing is found, such a run comes to the input of its host. -/
theorem obtainInput_missing {codec : InputCodec Body Bytes} (hcreate : outside.createFile = true)
    (hbroken : outside.brokenOff = none) {run : Run} (hmissing : clientInputFromCache codec store.files run = none) :
    ∃ files, obtainInput codec outside run store =
      match hostInput outside.host run with
      | some input => .ok input { store with files := files }
      | none => .error .host store := by
  refine ⟨(RethProcessor.execute outside.host codec store.files run).2, ?_⟩
  rw [obtainInput_calm hcreate hbroken, RethProcessor.execute, hmissing]
  cases hostInput outside.host run with
  | none => rfl
  | some input =>
      cases run.config.cacheDir with
      | none => rfl
      | some cacheDir => rfl

theorem missing_of_empty {codec : InputCodec Body Bytes} {files : Files Bytes} (hempty : files = fun _ => none)
    (run : Run) : clientInputFromCache codec files run = none := by
  subst hempty
  cases hdir : run.config.cacheDir with
  | none => simp only [clientInputFromCache, hdir, Option.bind_none]
  | some cacheDir => simp only [clientInputFromCache, hdir, Option.bind_some, tryLoadInputFromCache]

/-- The calls of the hooks in one store are those in another one after some that were before. -/
def LogsAfter (before : List (Job × Event Body Proof Report)) (s t : Store Body Proof Report) : Prop :=
  s.log = before ++ t.log

theorem LogsAfter.snoc {before : List (Job × Event Body Proof Report)} {s t : Store Body Proof Report}
    (h : LogsAfter before s t) (entry : Job × Event Body Proof Report) :
    LogsAfter before { s with log := s.log ++ [entry] } { t with log := t.log ++ [entry] } := by
  change s.log ++ [entry] = before ++ (t.log ++ [entry])
  rw [← List.append_assoc, ← show s.log = before ++ t.log from h]

theorem callHook_alike (outside : Outside Body Proof Report) {s t : Store Body Proof Report} {job : Job}
    {event : Event Body Proof Report} {R : Store Body Proof Report → Store Body Proof Report → Prop}
    (h : R { s with log := s.log ++ [(job, event)] } { t with log := t.log ++ [(job, event)] }) :
    Alike (callHook outside job event) s (callHook outside job event) t R := by
  refine (alike_modify h).bind (fun _ _ hst => hst) ?_
  intro _ s' t' hst
  split
  · exact alike_pure hst
  · exact alike_throw hst

theorem LogsAfter.processClient {codec : InputCodec Body Bytes} {before : List (Job × Event Body Proof Report)}
    {s t : Store Body Proof Report} (h : LogsAfter before s t) (outside : Outside Body Proof Report) (job : Job)
    (input : ClientExecutorInput Body) :
    Alike (processClient codec outside job input) s (Full.processClient codec outside job input) t (LogsAfter before) := by
  unfold Full.processClient
  cases job.proveMode with
  | true =>
      refine (callHook_alike outside (h.snoc _)).bind (fun _ _ hst => hst) ?_
      intro _ s' t' hst
      split
      · exact alike_throw hst
      · split
        · exact alike_throw hst
        · exact callHook_alike outside (hst.snoc _)
  | false =>
      dsimp only
      split
      · exact alike_throw h
      · exact alike_throw h
      · exact callHook_alike outside (h.snoc _)

/-- Two runs, also over different hosts, that come to the same input, or to none for the same reason, end
in the same way. -/
theorem LogsAfter.execute {codec : InputCodec Body Bytes} {before : List (Job × Event Body Proof Report)}
    {s t : Store Body Proof Report} (h : LogsAfter before s t) {run : Run} {host : HostExecutor Body}
    (hobtain : ∀ s' t', LogsAfter before s' t' → s'.files = s.files → t'.files = t.files →
      Alike (obtainInput codec outside run) s' (obtainInput codec { outside with host := host } run) t' (LogsAfter before))
    (proveMode : Bool) :
    Alike (execute codec outside (.full run proveMode)) s (Full.execute codec { outside with host := host }
      (.full run proveMode)) t (LogsAfter before) := by
  let Started (s' t' : Store Body Proof Report) : Prop :=
    LogsAfter before s' t' ∧ s'.files = s.files ∧ t'.files = t.files
  have hstart : Alike (callHook outside (.full run proveMode) (.executionStart run.blockNumber)) s
      (callHook { outside with host := host } (.full run proveMode) (.executionStart run.blockNumber)) t Started :=
    callHook_alike outside (R := Started) ⟨h.snoc _, rfl, rfl⟩
  refine hstart.bind (fun _ _ hst => hst.1) ?_
  rintro _ s' t' ⟨hlog, hsfiles, htfiles⟩
  refine (hobtain s' t' hlog hsfiles htfiles).bind (fun _ _ hst => hst) ?_
  intro input s'' t'' hst
  exact hst.processClient outside _ input

/-- What has failed or was broken off before plays no part: where nothing is loaded that was made for
another configuration, a run ends as it ends over an empty cache, with the same calls of the hooks. Its
host is asked there, or, in the place of an input that is found, the one that has made it. -/
theorem execute_alike {run : Run} (hfresh : Fresh codec.toInputCodec (storeAfter codec.toInputCodec jobs).files run)
    (hcreate : outside.createFile = true) (hbroken : outside.brokenOff = none) (proveMode : Bool) :
    ∃ host, Sources jobs outside run host ∧
      (clientInputFromCache codec.toInputCodec (storeAfter codec.toInputCodec jobs).files run = none → host = outside.host) ∧
      Alike (execute codec.toInputCodec outside (.full run proveMode)) (storeAfter codec.toInputCodec jobs)
        (execute codec.toInputCodec { outside with host := host } (.full run proveMode)) ⟨fun _ => none, []⟩
        (LogsAfter (storeAfter codec.toInputCodec jobs).log) := by
  have hlogs : LogsAfter (storeAfter codec.toInputCodec jobs).log (storeAfter codec.toInputCodec jobs)
      (⟨fun _ => none, []⟩ : Store Body Proof Report) := (List.append_nil _).symm
  cases hfound : clientInputFromCache codec.toInputCodec (storeAfter codec.toInputCodec jobs).files run with
  | none =>
      refine ⟨outside.host, .inl rfl, fun _ => rfl, hlogs.execute ?_ proveMode⟩
      intro s t hlog hs ht
      obtain ⟨files, hobtain⟩ := @obtainInput_missing _ _ _ outside s _ hcreate hbroken run (hs ▸ hfound)
      obtain ⟨files', hobtain'⟩ := obtainInput_missing hcreate hbroken (@missing_of_empty _ codec.toInputCodec _ ht run)
      unfold Alike
      rw [hobtain, hobtain']
      cases hostInput outside.host run with
      | none => exact ⟨rfl, hlog⟩
      | some input => exact ⟨rfl, hlog⟩
  | some cached =>
      obtain ⟨host, hsource, hinput⟩ := (sound_files codec jobs).found_fresh hfresh hfound
      refine ⟨host, hsource, fun hnone => (nomatch hnone), hlogs.execute ?_ proveMode⟩
      intro s t hlog hs ht
      have hobtain := @obtainInput_calm _ _ _ outside s codec.toInputCodec hcreate hbroken run
      rw [RethProcessor.execute, hs, hfound] at hobtain
      obtain ⟨files, hobtain'⟩ := @obtainInput_missing _ _ _ { outside with host := host } t codec.toInputCodec hcreate
        hbroken run (missing_of_empty ht run)
      rw [hinput] at hobtain'
      unfold Alike
      rw [hobtain, hobtain']
      exact ⟨rfl, hlog⟩

/-- The host has made an input under the genesis of its chain, as it knows none of a genesis file. -/
theorem MadeIn.chain {run : Run} {input : ClientExecutorInput Body} (h : MadeIn jobs run input)
    (hconfigured : ∀ job ∈ jobs, ∀ run proveMode, job.1 = .full run proveMode → run.config.Configured)
    (hchains : ∀ job ∈ jobs, job.2.host.KnowsChains) : input.genesis.chainId = .ok run.config.chainId := by
  obtain ⟨outside, proveMode, hjob, hmade⟩ := h
  obtain ⟨outcome, houtcome, hgenesis, -⟩ := hostInput_eq_some hmade
  rcases hconfigured _ hjob run proveMode rfl with hknown | ⟨json, hcustom⟩
  · rw [hgenesis]
    exact Genesis.tryFrom_ok_iff.mp hknown
  · obtain ⟨chainId, hid⟩ := hchains _ hjob houtcome
    rw [hgenesis, hcustom] at hid
    cases hid

theorem Vouched.mono {inputs inputs' : ClientExecutorInput Body → Prop} {job : Job} {event : Event Body Proof Report}
    (h : Vouched accepts inputs job event) (hinputs : ∀ input, inputs input → inputs' input) :
    Vouched accepts inputs' job event := by
  cases event with
  | executionStart blockNumber => exact h
  | provingStart blockNumber =>
      obtain ⟨input, hinput, hblock⟩ := h
      exact ⟨input, hinputs input hinput, hblock⟩
  | provingEnd blockNumber proof publicValues cycles =>
      obtain ⟨input, hinput, haccepts, hblock⟩ := h
      exact ⟨input, hinputs input hinput, haccepts, hblock⟩
  | executionEnd block report =>
      obtain ⟨input, publicValues, hinput, haccepts, hblock⟩ := h
      exact ⟨input, publicValues, hinputs input hinput, haccepts, hblock⟩

/-- After any jobs on a zkVM that runs the guest, failed or broken off ones among them, every call of
a hook is vouched for: what is reported as executed or proved is a block that the guest has verified. -/
theorem log_vouched (h : ∀ job ∈ jobs, job.2.RunsGuest guest codec.toInputCodec)
    (hconfigured : ∀ job ∈ jobs, ∀ run proveMode, job.1 = .full run proveMode → run.config.Configured)
    (hchains : ∀ job ∈ jobs, job.2.host.KnowsChains) :
    ∀ entry ∈ (storeAfter codec.toInputCodec jobs).log, Vouched guest.Accepts (MadeFor jobs entry.1) entry.1 entry.2 := by
  have hs : Sound codec.toInputCodec guest.Accepts (MadeIn jobs) (storeAfter codec.toInputCodec jobs) := by
    refine sound_storeAfter ?_
    intro job hjob
    have hrun := h job hjob
    exact ⟨fun _ _ _ hexecute => Guest.accepts_of_main (hrun.execute _ _ _ hexecute),
      fun _ _ _ _ _ hprove => Guest.accepts_of_main (hrun.prove _ _ _ _ _ hprove)⟩
  intro entry hentry
  refine (hs.log entry hentry).mono ?_
  rintro input ⟨run, found, opcodeTracking, hmade, hblock, hchain, rfl⟩
  exact ⟨⟨run, found, opcodeTracking, hmade, hblock, hchain, rfl⟩, hchain ▸ hmade.chain hconfigured hchains⟩

end Sound

section Stages
variable {Body Proof Report : Type} {codec : InputCodec Body Bytes} {outside : Outside Body Proof Report}
  {start store : Store Body Proof Report} {job : Job}

/-- What a job has logged since a store: its calls, with their stages. -/
def Logged (job : Job) (start : Store Body Proof Report) (stages : List Stage) (store : Store Body Proof Report) : Prop :=
  ∃ events : List (Event Body Proof Report), store.log = start.log ++ events.map (Prod.mk job) ∧
    events.map Event.stage = stages

theorem Logged.congr {stages : List Stage} (h : Logged job start stages store) {store' : Store Body Proof Report}
    (hlog : store'.log = store.log) : Logged job start stages store' := by
  obtain ⟨events, hevents, hstages⟩ := h
  exact ⟨events, hlog.trans hevents, hstages⟩

/-- The calls of a job so far, in their order. -/
def Underway (job : Job) (start store : Store Body Proof Report) : Prop :=
  ∃ stages, Logged job start stages store ∧ stages <+: job.stages

/-- A job that goes on with a call is one call further, and may stop there. -/
theorem Logged.callHook {before after : List Stage} {event : Event Body Proof Report} (h : Logged job start before store)
    (hstages : job.stages = before ++ event.stage :: after) :
    Ensures (callHook outside job event) store (Underway job start) fun _ s =>
      Logged job start (before ++ [event.stage]) s := by
  obtain ⟨events, hlog, hevents⟩ := h
  have hnext : Logged job start (before ++ [event.stage]) { store with log := store.log ++ [(job, event)] } := by
    refine ⟨events ++ [event], ?_, ?_⟩
    · rw [hlog, List.map_append, List.append_assoc]
      rfl
    · rw [List.map_append, hevents]
      rfl
  have hprefix : before ++ [event.stage] <+: job.stages := by
    rw [hstages]
    exact (List.prefix_append_right_inj before).mpr ⟨after, rfl⟩
  refine (ensures_modify ⟨_, hnext, hprefix⟩).bind ?_
  rintro _ s hs rfl
  split
  · exact ensures_pure hs hnext
  · exact ensures_throw hs

/-- A job that returns has made all its calls, and proves only where the hash of the program is set. -/
def Returned (outside : Outside Body Proof Report) (job : Job) (start store : Store Body Proof Report) : Prop :=
  Logged job start job.stages store ∧ (job.proveMode = true → (outside.elfId job).isSome)

theorem Logged.processClient {before : List Stage} (h : Logged job start before store)
    (hstages : job.stages = before ++ (if job.proveMode then [.provingStart, .provingEnd] else [.executionEnd]))
    (input : ClientExecutorInput Body) : Ensures (processClient codec outside job input) store (Underway job start)
      fun _ s => Returned outside job start s := by
  unfold Full.processClient Returned
  cases hmode : job.proveMode with
  | true =>
      rw [hmode] at hstages
      let event : Event Body Proof Report := .provingStart input.currentBlock.header.number
      refine (h.callHook (show _ = before ++ event.stage :: _ from hstages)).bind ?_
      intro _ s hs hlogged
      split
      · exact ensures_throw hs
      · next elfId helf =>
          split
          · exact ensures_throw hs
          · next proof publicValues cycles hproof =>
              have hrest : job.stages = (before ++ [.provingStart]) ++ [.provingEnd] := by
                rw [hstages, List.append_assoc]
                rfl
              let last : Event Body Proof Report :=
                .provingEnd input.currentBlock.header.number proof publicValues cycles
              refine (hlogged.callHook (show _ = _ ++ last.stage :: [] from hrest)).mono (fun _ hs => hs) ?_
              intro _ s' _ hdone
              exact ⟨hrest.symm ▸ hdone, fun _ => Option.isSome_of_mem helf⟩
  | false =>
      rw [hmode] at hstages
      have hunderway : Underway job start store := ⟨before, h, hstages ▸ List.prefix_append _ _⟩
      dsimp only
      split
      · exact ensures_throw hunderway
      · exact ensures_throw hunderway
      · next value values report hreport =>
          let last : Event Body Proof Report := .executionEnd input.currentBlock report
          refine (h.callHook (show _ = before ++ last.stage :: [] from hstages)).mono (fun _ hs => hs) ?_
          intro _ s' _ hdone
          exact ⟨hstages.symm ▸ hdone, fun hprove => absurd hprove Bool.false_ne_true⟩

/-- Whatever fails outside, the hooks are called for a job in the order of its stages; all of them are
when it returns, and to prove from the cache alone it never does. -/
theorem execute_stages (codec : InputCodec Body Bytes) (outside : Outside Body Proof Report) (job : Job)
    (store : Store Body Proof Report) : Ensures (execute codec outside job) store (Underway job store)
      fun _ s => Returned outside job store s := by
  have hempty : Logged job store [] store := ⟨[], (List.append_nil _).symm, rfl⟩
  have hstart : Underway job store store := ⟨[], hempty, List.nil_prefix⟩
  cases job with
  | full run proveMode =>
      have hstages : (Job.full run proveMode).stages = [.executionStart] ++
          (if proveMode then [.provingStart, .provingEnd] else [.executionEnd]) := by
        cases proveMode with
        | true => rfl
        | false => rfl
      let event : Event Body Proof Report := .executionStart run.blockNumber
      refine (hempty.callHook (show _ = [] ++ event.stage :: _ from hstages)).bind ?_
      intro _ s hs hlogged
      have hobtain : Ensures (obtainInput codec outside run) s (Underway (.full run proveMode) store)
          fun _ s' => s'.log = s.log := by
        refine (obtainInput_handed run).mono ?_ fun _ _ hlog _ => hlog
        intro s' hlog
        exact ⟨_, hlogged.congr hlog, ⟨_, hstages.symm⟩⟩
      refine hobtain.bind ?_
      intro input s' _ hlog
      exact (hlogged.congr hlog).processClient hstages input
  | cached path proveMode =>
      refine (ensures_get hstart).bind ?_
      rintro _ s hs ⟨rfl, rfl⟩
      split
      · exact ensures_throw hs
      · exact ensures_throw hs
      · next input hinput =>
          refine hempty.processClient ?_ input
          cases proveMode with
          | true => rfl
          | false => rfl

end Stages

section Sample

def Guest.raise : Guest Unit Unit HashedPostState String String where
  reth := raiseReth
  keccak := laterKeccak
  accountCodec := rlpCodec
  decodeSlot _ := none
  hashSlow := threeHashes
  files := noFiles
  order _ := ∅

/-- Whether an input is the one of the sample. -/
def isRaise (input : ClientExecutorInput Unit) : Bool :=
  match input.parentState.stateTrie with
  | .leaf path value => path = toEncodedPath zeroAddressHash.nibs true ∧ value = rlpCodec.encode ⟨1, 1, EMPTY_ROOT, KECCAK_EMPTY⟩ ∧
      input.parentState.storageTries.keys = ∅ ∧ input.currentBlock.header = shownChain 1 ∧
      input.ancestorHeaders = [shownChain 0] ∧ input.bytecodes = [] ∧ input.genesis = .mainnet ∧
      input.customBeneficiary = none ∧ input.opcodeTracking = false
  | _ => false

theorem eq_of_isRaise {input : ClientExecutorInput Unit} (h : isRaise input = true) : input = raiseInput := by
  obtain ⟨⟨header, body⟩, ancestors, ⟨stateTrie, storageTries⟩, codes, genesis, beneficiary, tracking⟩ := input
  unfold isRaise at h
  split at h
  · next path value hleaf =>
      simp only [decide_eq_true_eq] at h
      obtain ⟨rfl, rfl, hkeys, rfl, rfl, rfl, rfl, rfl, rfl⟩ := h
      have htries : storageTries = ∅ := by
        refine Finmap.ext_lookup fun k => ?_
        rw [Finmap.lookup_eq_none.mpr (fun hk => by rw [← Finmap.mem_keys, hkeys] at hk; cases hk), Finmap.lookup_empty]
      dsimp only at hleaf
      rw [htries, hleaf]
      rfl
  · cases h

/-- A codec that writes the input of the sample as one byte, and reads no other. -/
def raiseCodec : StreamCodec Unit where
  serialize input := if isRaise input then [1] else [0]
  deserializeFrom
    | 1 :: rest => some (raiseInput, rest)
    | _ => none
  deserializeFrom_append {bytes input rest} h more := by
    split at h
    · next rest' =>
        cases h
        rfl
    · cases h
  deserializeFrom_serialize {input loaded rest} h := by
    cases hraise : isRaise input with
    | true =>
        rw [hraise] at h
        cases h
        exact ⟨(eq_of_isRaise hraise).symm, rfl⟩
    | false =>
        rw [hraise] at h
        cases h

/-- A host that returns the input of the sample, for mainnet alone. -/
def raiseHost : HostExecutor Unit where
  outcome
    | _, .mainnet, _ =>
        some ⟨raiseInput.currentBlock, raiseInput.ancestorHeaders, raiseInput.parentState, raiseInput.bytecodes⟩
    | _, _, _ => none

/-- A host whose provider is down. -/
def downHost : HostExecutor Unit where
  outcome _ _ _ := none

/-- A zkVM that runs the guest, and hooks that do not fail. -/
def raiseOutside (host : HostExecutor Unit) (brokenOff : Option Nat) : Outside Unit Unit Unit where
  host := host
  hook _ := .ok ()
  prove stdin _ :=
    match Guest.raise.main raiseCodec.toInputCodec stdin with
    | some publicValues => .ok ((), publicValues, 0)
    | none => .error "panicked"
  execute stdin :=
    match Guest.raise.main raiseCodec.toInputCodec stdin with
    | some publicValues => .ok (publicValues, ())
    | none => .error "panicked"
  elfHash := "e3b0"
  madeFull := true
  createFile := true
  brokenOff := brokenOff

theorem runsGuest_raise (host : HostExecutor Unit) (brokenOff : Option Nat) :
    (raiseOutside host brokenOff).RunsGuest Guest.raise raiseCodec.toInputCodec where
  execute stdin publicValues report h := by
    unfold raiseOutside at h
    dsimp only at h
    split at h
    · next found hfound =>
        cases h
        exact hfound
    · cases h
  prove stdin elfId proof publicValues cycles h := by
    unfold raiseOutside at h
    dsimp only at h
    split at h
    · next found hfound =>
        cases h
        exact hfound
    · cases h

theorem main_raise : Guest.raise.main raiseCodec.toInputCodec [1] = some [secondHash] := by
  have hverify : Guest.raise.verify raiseInput = .ok (secondHash, laterDigest, shownDigest) := verifyBlock_raiseInput
  change (match Guest.raise.verify raiseInput with
    | .error _ => none
    | .ok (blockHash, _, _) => some [blockHash]) = _
  rw [hverify]

def raiseRun : Run := ⟨⟨1, .mainnet, some "cache", none, false⟩, 1⟩

def raiseJob : Job := .full raiseRun false

/-- Three runs on the second block. The provider is down in the first, and the file of the second one is
broken off at once. -/
def raiseJobs : List (Job × Outside Unit Unit Unit) :=
  [(raiseJob, raiseOutside downHost none), (raiseJob, raiseOutside raiseHost (some 0)),
    (raiseJob, raiseOutside raiseHost none)]

theorem isRaise_raiseInput : isRaise raiseInput = true := by
  simp [isRaise, raiseInput, earlierState, shownLeaf]

theorem execute_raise (host : HostExecutor Unit) :
    (raiseOutside host none).execute (raiseCodec.toInputCodec.serialize raiseInput) = .ok ([secondHash], ()) := by
  have hbytes : raiseCodec.toInputCodec.serialize raiseInput = [1] := by
    simp only [StreamCodec.toInputCodec, raiseCodec, isRaise_raiseInput, if_true]
  rw [hbytes]
  unfold raiseOutside
  dsimp only
  rw [main_raise]

/-- The third run does not find anything in what the others have left. -/
theorem found_raise {codec : InputCodec Unit Bytes} (hempty : codec.deserialize [] = none) :
    clientInputFromCache codec (Function.update (fun _ => none) ⟨"cache", 1, 1⟩ (some [])) raiseRun = none := by
  simp only [clientInputFromCache, raiseRun, Option.bind_some, tryLoadInputFromCache, Function.update_self, hempty]

theorem storeAfter_raise {codec : InputCodec Unit Bytes} (hempty : codec.deserialize [] = none) :
    storeAfter codec raiseJobs = leaves (processClient codec (raiseOutside raiseHost none) raiseJob raiseInput)
      ⟨Function.update (Function.update (fun _ => none) ⟨"cache", 1, 1⟩ (some [])) ⟨"cache", 1, 1⟩
        (some (codec.serialize raiseInput)),
        [(raiseJob, .executionStart 1), (raiseJob, .executionStart 1), (raiseJob, .executionStart 1)]⟩ := by
  have hlast : storeAfter codec raiseJobs = leaves (execute codec (raiseOutside raiseHost none) raiseJob)
      ⟨Function.update (fun _ => none) ⟨"cache", 1, 1⟩ (some []),
        [(raiseJob, .executionStart 1), (raiseJob, .executionStart 1)]⟩ := rfl
  have hobtain (log : List (Job × Event Unit Unit Unit)) :
      obtainInput codec (raiseOutside raiseHost none) raiseRun
        ⟨Function.update (fun _ => none) ⟨"cache", 1, 1⟩ (some []), log⟩ =
        .ok raiseInput ⟨Function.update (Function.update (fun _ => none) ⟨"cache", 1, 1⟩ (some [])) ⟨"cache", 1, 1⟩
          (some (codec.serialize raiseInput)), log⟩ := by
    rw [obtainInput_calm rfl rfl, RethProcessor.execute, found_raise hempty]
    rfl
  have hexecute (store : Store Unit Unit Unit) : execute codec (raiseOutside raiseHost none) raiseJob store =
      (obtainInput codec (raiseOutside raiseHost none) raiseRun >>= fun input =>
        processClient codec (raiseOutside raiseHost none) raiseJob input)
          { store with log := store.log ++ [(raiseJob, .executionStart 1)] } := rfl
  simp only [hlast, leaves, hexecute, bind, EStateM.bind, hobtain]
  rfl

theorem mem_log_raise : (raiseJob, (.executionEnd ⟨shownChain 1, ()⟩ () : Event Unit Unit Unit)) ∈
    (storeAfter raiseCodec.toInputCodec raiseJobs).log := by
  rw [storeAfter_raise rfl, processClient, execute_raise]
  exact List.mem_append_right _ (List.mem_singleton_self _)

/-- What the codec of the sample reads has the configuration of the run. -/
theorem fresh_raise (files : Files Bytes) : Fresh raiseCodec.toInputCodec files raiseRun := by
  intro cached hcached
  obtain ⟨cacheDir, -, hload⟩ := Option.bind_eq_some_iff.mp hcached
  split at hload
  · next input hinput =>
      rw [hload] at hinput
      obtain ⟨file, -, hread⟩ := tryLoad_ok_some hinput
      obtain ⟨⟨read, rest⟩, hfrom, rfl⟩ := Option.map_eq_some_iff.mp hread
      unfold raiseCodec at hfrom
      dsimp only at hfrom
      split at hfrom
      · cases hfrom
        exact ⟨rfl, rfl⟩
      · cases hfrom
  · cases hload

theorem raiseHost_knowsChains : raiseHost.KnowsChains := by
  intro blockNumber genesis customBeneficiary outcome h
  cases genesis with
  | mainnet => exact ⟨1, rfl⟩
  | opMainnet | sepolia | linea | GOAT | goatTestnet | custom json => cases h

theorem log_vouched_raise : Vouched Guest.raise.Accepts (MadeFor raiseJobs raiseJob) raiseJob
    (.executionEnd ⟨shownChain 1, ()⟩ () : Event Unit Unit Unit) := by
  refine @log_vouched _ _ _ _ _ _ _ _ raiseCodec raiseJobs ?_ ?_ ?_ _ mem_log_raise
  · intro job hjob
    simp only [raiseJobs, List.mem_cons, List.not_mem_nil, or_false] at hjob
    rcases hjob with rfl | rfl | rfl <;> exact runsGuest_raise _ _
  · intro job hjob run proveMode hrun
    simp only [raiseJobs, List.mem_cons, List.not_mem_nil, or_false] at hjob
    rcases hjob with rfl | rfl | rfl <;> cases hrun <;> exact .inl rfl
  · intro job hjob
    simp only [raiseJobs, List.mem_cons, List.not_mem_nil, or_false] at hjob
    rcases hjob with rfl | rfl | rfl
    · exact fun h => nomatch h
    · exact raiseHost_knowsChains
    · exact raiseHost_knowsChains

theorem execute_alike_raise : ∃ host, Sources raiseJobs (raiseOutside downHost none) raiseRun host ∧
    (clientInputFromCache raiseCodec.toInputCodec (storeAfter raiseCodec.toInputCodec raiseJobs).files raiseRun = none →
      host = downHost) ∧
    Alike (execute raiseCodec.toInputCodec (raiseOutside downHost none) raiseJob)
      (storeAfter raiseCodec.toInputCodec raiseJobs)
      (execute raiseCodec.toInputCodec (raiseOutside host none) raiseJob) ⟨fun _ => none, []⟩
      (LogsAfter (storeAfter raiseCodec.toInputCodec raiseJobs).log) := by
  refine @execute_alike Unit Unit Unit raiseCodec (raiseOutside downHost none) raiseJobs raiseRun (fresh_raise _)
    rfl rfl false

end Sample

end Full

end RethProcessor
