import RethProcessor.Memo
import RethProcessor.BlockHashes

/-! The inputs that the host caches. A file is found by the chain and the block alone, and of what
the configuration adds to an input only the opcode tracking is set anew on what is loaded. -/
namespace RethProcessor

/-- What is read of a configuration. -/
structure Config where
  chainId : UInt64
  genesis : Genesis
  cacheDir : Option String
  customBeneficiary : Option Address
  opcodeTracking : Bool

/-- `{cache_dir}/input/{chain_id}/{block_number}.bin`. -/
structure CachePath where
  cacheDir : String
  chainId : UInt64
  blockNumber : UInt64
  deriving DecidableEq

/-- What the host executor finds out about a block. -/
structure HostOutcome (Body : Type) where
  currentBlock : Block Body
  ancestorHeaders : List Header
  parentState : EthereumState
  bytecodes : List Bytes

/-- The host executor, as a function: it may fail, and the opcode tracking plays no part in it. -/
structure HostExecutor (Body : Type) where
  outcome : UInt64 → Genesis → Option Address → Option (HostOutcome Body)

/-- `HostExecutor::execute`. -/
def HostExecutor.execute {Body : Type} (host : HostExecutor Body) (blockNumber : UInt64) (genesis : Genesis)
    (customBeneficiary : Option Address) (opcodeTracking : Bool) : Option (ClientExecutorInput Body) :=
  (host.outcome blockNumber genesis customBeneficiary).map fun outcome =>
    { currentBlock := outcome.currentBlock
      ancestorHeaders := outcome.ancestorHeaders
      parentState := outcome.parentState
      bytecodes := outcome.bytecodes
      genesis := genesis
      customBeneficiary := customBeneficiary
      opcodeTracking := opcodeTracking }

/-- `bincode`, for the contents of a file: what it reads back, where it does, is what was written. -/
structure InputCodec (Body File : Type) where
  serialize : ClientExecutorInput Body → File
  deserialize : File → Option (ClientExecutorInput Body)
  eq_of_deserialize : ∀ {input loaded}, deserialize (serialize input) = some loaded → loaded = input

abbrev Files (File : Type) := CachePath → Option File

/-- `FullExecutor`: a host executor under a configuration. -/
structure Run where
  config : Config
  blockNumber : UInt64

section Execute
variable {Body File : Type} (host : HostExecutor Body) (codec : InputCodec Body File)

/-- `try_load_input_from_cache`; a file that cannot be read is an error. -/
def tryLoadInputFromCache (files : Files File) (path : CachePath) : Except Unit (Option (ClientExecutorInput Body)) :=
  match files path with
  | none => .ok none
  | some file =>
      match codec.deserialize file with
      | some input => .ok (some input)
      | none => .error ()

def clientInputFromCache (files : Files File) (run : Run) : Option (ClientExecutorInput Body) :=
  run.config.cacheDir.bind fun cacheDir =>
    match tryLoadInputFromCache codec files ⟨cacheDir, run.config.chainId, run.blockNumber⟩ with
    | .ok input => input
    | .error _ => none

/-- What the host executor returns for the configuration of a run. -/
def hostInput (run : Run) : Option (ClientExecutorInput Body) :=
  host.execute run.blockNumber run.config.genesis run.config.customBeneficiary run.config.opcodeTracking

/-- `FullExecutor::execute`: the input for `process_client`, unless the host fails, and the files. -/
def execute (files : Files File) (run : Run) : Option (ClientExecutorInput Body) × Files File :=
  match clientInputFromCache codec files run with
  | some cached => (some { cached with opcodeTracking := run.config.opcodeTracking }, files)
  | none =>
      match hostInput host run with
      | none => (none, files)
      | some input =>
          match run.config.cacheDir with
          | none => (some input, files)
          | some cacheDir =>
              (some input, Function.update files ⟨cacheDir, run.config.chainId, run.blockNumber⟩
                (some (codec.serialize input)))

/-- The files after some runs, in a directory that is empty at first. -/
def filesAfter (runs : List Run) : Files File :=
  runs.foldl (fun files run => (execute host codec files run).2) fun _ => none

/-- What is in the cache for the block has the genesis and the beneficiary of the configuration. -/
def Fresh (files : Files File) (run : Run) : Prop :=
  ∀ cached, clientInputFromCache codec files run = some cached →
    cached.genesis = run.config.genesis ∧ cached.customBeneficiary = run.config.customBeneficiary

/-- The cache as a table of inputs, with the override as the fitting. -/
def inputScheme : Memo.Scheme Run CachePath (ClientExecutorInput Body) File where
  compute := hostInput host
  key run := run.config.cacheDir.map fun cacheDir => ⟨cacheDir, run.config.chainId, run.blockNumber⟩
  store := codec.serialize
  load := codec.deserialize
  fit run cached := { cached with opcodeTracking := run.config.opcodeTracking }
  eq_of_load := codec.eq_of_deserialize

variable {host codec}

theorem found_eq (files : Files File) (run : Run) :
    (inputScheme host codec).found files run = clientInputFromCache codec files run := by
  rw [clientInputFromCache, Memo.Scheme.found]
  cases hdir : run.config.cacheDir with
  | none => simp only [inputScheme, hdir, Option.map_none, Option.bind_none]
  | some cacheDir =>
      simp only [inputScheme, hdir, Option.map_some, Option.bind_some, tryLoadInputFromCache]
      cases files ⟨cacheDir, run.config.chainId, run.blockNumber⟩ with
      | none => rfl
      | some file =>
          simp only [Option.bind_some]
          cases codec.deserialize file with
          | none => rfl
          | some input => rfl

/-- A run is a call of the host executor behind the table. -/
theorem execute_eq_call (files : Files File) (run : Run) :
    execute host codec files run = (inputScheme host codec).call files run := by
  rw [execute, Memo.Scheme.call, found_eq]
  cases clientInputFromCache codec files run with
  | some cached => rfl
  | none =>
      simp only [Memo.Scheme.remember, inputScheme]
      cases hostInput host run with
      | none => rfl
      | some input =>
          cases run.config.cacheDir with
          | none => rfl
          | some cacheDir => rfl

theorem filesAfter_eq (runs : List Run) : filesAfter host codec runs = (inputScheme host codec).after runs := by
  simp only [filesAfter, Memo.Scheme.after, execute_eq_call]

end Execute

section Handed
variable {Body File : Type} {host : HostExecutor Body} {codec : InputCodec Body File}

theorem hostInput_eq_some {run : Run} {input : ClientExecutorInput Body} (h : hostInput host run = some input) :
    ∃ outcome, host.outcome run.blockNumber input.genesis input.customBeneficiary = some outcome ∧
      input.genesis = run.config.genesis ∧ input.customBeneficiary = run.config.customBeneficiary ∧
      input.currentBlock = outcome.currentBlock ∧ input.ancestorHeaders = outcome.ancestorHeaders ∧
      input.parentState = outcome.parentState ∧ input.bytecodes = outcome.bytecodes := by
  obtain ⟨outcome, houtcome, rfl⟩ := Option.map_eq_some_iff.mp h
  exact ⟨outcome, houtcome, rfl, rfl, rfl, rfl, rfl, rfl⟩

/-- What is loaded for a run was made by the host for a run of the same block. -/
theorem cached_from_run {before : List Run} {run : Run} {cached : ClientExecutorInput Body}
    (h : clientInputFromCache codec (filesAfter host codec before) run = some cached) :
    ∃ other : Run, other.blockNumber = run.blockNumber ∧ hostInput host other = some cached := by
  rw [← @found_eq _ _ host, filesAfter_eq] at h
  obtain ⟨other, hkey, hother⟩ := (Memo.Scheme.sound_after before).found h
  refine ⟨other, ?_, hother⟩
  cases hdir : run.config.cacheDir with
  | none =>
      simp only [Memo.Scheme.found, inputScheme, hdir, Option.map_none, Option.bind_none, reduceCtorEq] at h
  | some cacheDir =>
      simp only [inputScheme, hdir, Option.map_some] at hkey
      obtain ⟨otherDir, -, hpath⟩ := Option.map_eq_some_iff.mp hkey
      exact congrArg CachePath.blockNumber hpath

/-- After whatever runs, a run hands on the input of the host for its own configuration exactly
when nothing is loaded that was made for another genesis or another beneficiary. -/
theorem handed_iff_fresh (host : HostExecutor Body) (codec : InputCodec Body File) (before : List Run) (run : Run) :
    (∀ input, (execute host codec (filesAfter host codec before) run).1 = some input →
      hostInput host run = some input) ↔ Fresh codec (filesAfter host codec before) run := by
  rw [execute_eq_call]
  apply Memo.Scheme.correct_iff.trans
  simp only [found_eq, Fresh]
  apply forall₂_congr
  intro cached hcached
  obtain ⟨other, hblock, hother⟩ := cached_from_run hcached
  obtain ⟨outcome, houtcome, -, -, hcurrent, hancestors, hstate, hcodes⟩ := hostInput_eq_some hother
  constructor
  · intro h
    obtain ⟨-, -, hgenesis, hbeneficiary, -⟩ := hostInput_eq_some h
    exact ⟨hgenesis, hbeneficiary⟩
  · rintro ⟨hgenesis, hbeneficiary⟩
    rw [hblock, hgenesis, hbeneficiary] at houtcome
    change hostInput host run = some { cached with opcodeTracking := run.config.opcodeTracking }
    rw [hostInput, HostExecutor.execute, houtcome, hgenesis, hbeneficiary, hcurrent, hancestors, hstate, hcodes]
    rfl

end Handed

section Sample

/-- A host executor that returns one outcome for everything. -/
def thirdHost : HostExecutor Unit where
  outcome _ _ _ := some ⟨(thirdInput []).currentBlock, [], (thirdInput []).parentState, []⟩

/-- A codec that keeps the input as it is. -/
def plainCodec : InputCodec Unit (ClientExecutorInput Unit) where
  serialize input := input
  deserialize := some
  eq_of_deserialize h := (Option.some.inj h).symm

def thirdRun (customBeneficiary : Option Address) : Run := ⟨⟨1, .mainnet, some "cache", customBeneficiary, false⟩, 2⟩

/-- A second run on a block with another beneficiary is handed the input of the first. -/
theorem handed_stale : ∃ input,
    (execute thirdHost plainCodec (filesAfter thirdHost plainCodec [thirdRun none])
      (thirdRun (some Address.ZERO))).1 = some input ∧
    input.customBeneficiary = none ∧
    hostInput thirdHost (thirdRun (some Address.ZERO)) ≠ some input := by
  refine ⟨_, rfl, rfl, ?_⟩
  intro h
  cases congrArg ClientExecutorInput.customBeneficiary (Option.some.inj h)

end Sample

end RethProcessor
