import RethProcessor.FullExecutor
import RethProcessor.HostExecutor

/-! The command lines of the binaries. Each makes a configuration of its arguments, and the host binary
the executor that its configuration asks for. -/
namespace RethProcessor.HostCommand
open Calls Full

/-- What the binaries read besides their arguments: variables, files, and the chain id of a provider. -/
structure Environment (Url : Type) where
  var : String → Option String
  parse : String → Except String Url
  getChainId : Url → Except String UInt64
  readToString : String → Except String String

/-- The whole of a configuration. -/
structure Configuration (Url : Type) where
  config : Config
  rpcUrl : Option Url
  debugRpcUrl : Option Url
  proveMode : Bool

section Arguments
variable {Url : Type} (env : Environment Url)

/-- The provider and the chain id, one of which may be left out. -/
def resolveProvider : Option Url → Option UInt64 → Except String (Option Url × UInt64)
  | some rpcUrl, some chainId => .ok (some rpcUrl, chainId)
  | none, some chainId =>
      match env.var s!"RPC_{chainId}" with
      | some rpcEnvVar => do
          let rpcUrl ← env.parse rpcEnvVar
          .ok (some rpcUrl, chainId)
      | none => .ok (none, chainId)
  | some rpcUrl, none => do
      let chainId ← env.getChainId rpcUrl
      .ok (some rpcUrl, chainId)
  | none, none => .error "either --rpc-url or --chain-id must be used"

def resolveGenesis (genesisPath : Option String) (chainId : UInt64) : Except String Genesis :=
  match genesisPath with
  | some genesisPath => do
      let genesisJson ← (env.readToString genesisPath).mapError fun err => s!"Failed to read genesis file: {err}"
      .ok (.custom genesisJson)
  | none => Genesis.tryFrom chainId

/-- `HostArgs` of the host binary, without those of its report. -/
structure HostArgs (Url : Type) where
  blockNumber : UInt64
  rpcUrl : Option Url
  debugRpcUrl : Option Url
  chainId : Option UInt64
  genesisPath : Option String
  customBeneficiary : Option Address
  prove : Bool
  cacheDir : Option String
  opcodeTracking : Bool

/-- `HostArgs::as_config`. -/
def HostArgs.asConfig (args : HostArgs Url) : Except String (Configuration Url) := do
  let (rpcUrl, chainId) ← resolveProvider env args.rpcUrl args.chainId
  let debugRpcUrl := args.debugRpcUrl <|> (env.var s!"DEBUG_RPC_{chainId}").bind fun url => (env.parse url).toOption
  let genesis ← resolveGenesis env args.genesisPath chainId
  .ok ⟨⟨chainId, genesis, args.cacheDir, args.customBeneficiary, args.opcodeTracking⟩, rpcUrl, debugRpcUrl <|> rpcUrl,
    args.prove⟩

/-- `Args` of the continuous binary, as far as they make its configuration. -/
structure ContinuousArgs (Url : Type) where
  rpcUrl : Option Url
  chainId : Option UInt64
  genesisPath : Option String
  prove : Bool

/-- `Args::as_config` of the continuous binary. -/
def ContinuousArgs.asConfig (args : ContinuousArgs Url) : Except String (Configuration Url) := do
  let (rpcUrl, chainId) ← resolveProvider env args.rpcUrl args.chainId
  let genesis ← resolveGenesis env args.genesisPath chainId
  .ok ⟨⟨chainId, genesis, none, none, false⟩, rpcUrl, none, args.prove⟩

/-- `Args` of the eth-proofs binary, as far as they make its configuration. -/
structure EthProofsArgs (Url : Type) where
  httpRpcUrl : Url
  debugHttpRpcUrl : Url
  executeOnly : Bool

/-- `Args::as_config` of the eth-proofs binary. -/
def EthProofsArgs.asConfig (args : EthProofsArgs Url) : Configuration Url :=
  ⟨⟨1, .mainnet, none, none, false⟩, some args.httpRpcUrl, some args.debugHttpRpcUrl, !args.executeOnly⟩

/-- `build_executor`, in a binary that has made its chain specification before, or panicked. -/
def buildExecutor (files : Genesis.Files) (configuration : Configuration Url) (blockNumber : UInt64) : Except String Job := do
  let _ ← configuration.config.genesis.chainSpec files
  match configuration.rpcUrl, configuration.config.cacheDir with
  | some _, _ => .ok (.full ⟨configuration.config, blockNumber⟩ configuration.proveMode)
  | none, some cacheDir => .ok (.cached ⟨cacheDir, configuration.config.chainId, blockNumber⟩ configuration.proveMode)
  | none, none => .error "Either a RPC URL or a cache dir must be provided"

/-- `main` of the host binary, up to the execution of its block. -/
def HostArgs.main (files : Genesis.Files) (args : HostArgs Url) : Except String Job := do
  let configuration ← args.asConfig env
  buildExecutor files configuration args.blockNumber

end Arguments

/-- An invocation of the host binary, with what it meets outside. -/
structure Invocation (Url Body Proof Report : Type) where
  env : Environment Url
  args : HostArgs Url
  outside : Outside Body Proof Report

/-- The jobs that some invocations come to; those that fail before do nothing. -/
def jobsOf {Url Body Proof Report : Type} (files : Genesis.Files) (invocations : List (Invocation Url Body Proof Report)) :
    List (Job × Outside Body Proof Report) :=
  invocations.filterMap fun invocation =>
    ((invocation.args.main invocation.env files).toOption).map fun job => (job, invocation.outside)

section Configured
variable {Url : Type} {env : Environment Url} {files : Genesis.Files}

theorem resolveGenesis_ok {genesisPath : Option String} {chainId : UInt64} {genesis : Genesis}
    (h : resolveGenesis env genesisPath chainId = .ok genesis) :
    if genesisPath = none then Genesis.tryFrom chainId = .ok genesis else ∃ json, genesis = .custom json := by
  cases genesisPath with
  | none => exact h
  | some path =>
      obtain ⟨json, -, hjson⟩ := bind_ok_inv h
      exact ⟨json, (Except.ok.inj hjson).symm⟩

/-- Such a genesis is the one of the chain, or of a file. -/
theorem configured_of_resolve {genesisPath : Option String} {config : Config}
    (h : resolveGenesis env genesisPath config.chainId = .ok config.genesis) : config.Configured := by
  have hresolved := resolveGenesis_ok h
  split_ifs at hresolved with hpath
  · exact .inl hresolved
  · exact .inr hresolved

/-- What the host binary copies of its arguments. -/
structure HostArgs.Gives (args : HostArgs Url) (env : Environment Url) (config : Config) : Prop where
  genesis : resolveGenesis env args.genesisPath config.chainId = .ok config.genesis
  cacheDir : config.cacheDir = args.cacheDir
  customBeneficiary : config.customBeneficiary = args.customBeneficiary
  opcodeTracking : config.opcodeTracking = args.opcodeTracking

theorem HostArgs.asConfig_ok {args : HostArgs Url} {configuration : Configuration Url}
    (h : args.asConfig env = .ok configuration) : args.Gives env configuration.config := by
  obtain ⟨⟨rpcUrl, chainId⟩, -, h⟩ := bind_ok_inv h
  obtain ⟨genesis, hgenesis, h⟩ := bind_ok_inv h
  obtain rfl := Except.ok.inj h
  exact ⟨hgenesis, rfl, rfl, rfl⟩

/-- The other binaries make such configurations as well. -/
theorem ContinuousArgs.asConfig_configured {args : ContinuousArgs Url} {configuration : Configuration Url}
    (h : args.asConfig env = .ok configuration) : configuration.config.Configured := by
  obtain ⟨⟨rpcUrl, chainId⟩, -, h⟩ := bind_ok_inv h
  obtain ⟨genesis, hgenesis, h⟩ := bind_ok_inv h
  obtain rfl := Except.ok.inj h
  exact configured_of_resolve hgenesis

theorem EthProofsArgs.asConfig_configured (args : EthProofsArgs Url) : args.asConfig.config.Configured := .inl rfl

theorem HostArgs.main_full {args : HostArgs Url} {run : Run} {proveMode : Bool}
    (h : args.main env files = .ok (.full run proveMode)) : args.Gives env run.config := by
  obtain ⟨configuration, hconfiguration, h⟩ := bind_ok_inv h
  obtain ⟨chainSpec, -, h⟩ := bind_ok_inv h
  split at h
  · cases h
    exact asConfig_ok hconfiguration
  · cases h
  · cases h

end Configured

/-- The host executor knows the chain of every genesis that it returns for. -/
theorem knowsChains_outcomes {Body Sender Output E Other σ : Type} {reth : Reth Body Sender Output E Other}
    {keccak : Bytes → B256} {codec : AccountCodec} {hashSlow : Header → B256}
    {getFullBlock : UInt64 → Except String (Option (Block Body))} {rpcDb : RpcDb σ} (executor : Host.HostExecutor) :
    (executor.outcomes reth keccak codec hashSlow getFullBlock rpcDb).KnowsChains := by
  intro blockNumber genesis customBeneficiary outcome h
  have hexecute : (executor.outcomes reth keccak codec hashSlow getFullBlock rpcDb).execute blockNumber genesis
      customBeneficiary false = some ⟨outcome.currentBlock, outcome.ancestorHeaders, outcome.parentState,
        outcome.bytecodes, genesis, customBeneficiary, false⟩ := by
    rw [RethProcessor.HostExecutor.execute, h]
    rfl
  obtain ⟨-, chainId, previous, senders, output, db, recorded, state, hx⟩ :=
    Host.HostExecutor.execute_returns (Host.HostExecutor.outcomes_execute.mp hexecute)
  exact ⟨chainId, hx.chain⟩

section Invocations
variable {Url Body Proof Report : Type} {env : Environment Url} {files : Genesis.Files} {codec : StreamCodec Body}
  {invocations : List (Invocation Url Body Proof Report)}

theorem mem_jobsOf {job : Job} {outside : Outside Body Proof Report} (h : (job, outside) ∈ jobsOf files invocations) :
    ∃ invocation ∈ invocations, invocation.args.main invocation.env files = .ok job ∧ invocation.outside = outside := by
  obtain ⟨invocation, hmem, hjob⟩ := List.mem_filterMap.mp h
  obtain ⟨found, hfound, hpair⟩ := Option.map_eq_some_iff.mp hjob
  cases hpair
  exact ⟨invocation, hmem, toOption_eq_some.mp hfound, rfl⟩

theorem configured_of_mem {job : Job × Outside Body Proof Report} (h : job ∈ jobsOf files invocations) (run : Run)
    (proveMode : Bool) (hjob : job.1 = .full run proveMode) : run.config.Configured := by
  obtain ⟨job, outside⟩ := job
  obtain rfl : job = .full run proveMode := hjob
  obtain ⟨invocation, -, hmain, -⟩ := mem_jobsOf h
  exact configured_of_resolve (HostArgs.main_full hmain).genesis

theorem knowsChains_of_mem (h : ∀ invocation ∈ invocations, invocation.outside.host.KnowsChains) :
    ∀ job ∈ jobsOf files invocations, job.2.host.KnowsChains := by
  rintro ⟨job, outside⟩ hjob
  obtain ⟨invocation, hmem, -, rfl⟩ := mem_jobsOf hjob
  exact h invocation hmem

/-- Over a history of invocations, one of them is handed an input that a host makes for its own
configuration exactly when its file holds none, or one with its beneficiary while it has no genesis file. -/
theorem handed_own_iff (hchains : ∀ invocation ∈ invocations, invocation.outside.host.KnowsChains)
    {args : HostArgs Url} {run : Run} {proveMode : Bool} (hmain : args.main env files = .ok (.full run proveMode)) :
    (∀ (outside : Outside Body Proof Report) input store,
      obtainInput codec.toInputCodec outside run (storeAfter codec.toInputCodec (jobsOf files invocations)) =
          .ok input store →
        ∃ host, Sources (jobsOf files invocations) outside run host ∧ hostInput host run = some input) ↔
      ∀ cached, clientInputFromCache codec.toInputCodec
          (storeAfter codec.toInputCodec (jobsOf files invocations)).files run = some cached →
        args.genesisPath = none ∧ cached.customBeneficiary = args.customBeneficiary := by
  have hgives := HostArgs.main_full hmain
  have hresolved := resolveGenesis_ok hgives.genesis
  have hchain {cached : ClientExecutorInput Body} (hcached : clientInputFromCache codec.toInputCodec
      (storeAfter codec.toInputCodec (jobsOf files invocations)).files run = some cached) :
      cached.genesis.chainId = .ok run.config.chainId := by
    obtain ⟨other, hmade, -, -, hsame⟩ := (sound_files codec _).found hcached
    rw [← hsame]
    exact hmade.chain (fun _ => configured_of_mem) (knowsChains_of_mem hchains)
  rw [handed_iff]
  apply forall₂_congr
  intro cached hcached
  rw [← hgives.customBeneficiary]
  apply and_congr_left'
  split_ifs at hresolved with hpath
  · refine iff_of_true ?_ hpath
    have hknown := Genesis.tryFrom_ok_iff.mpr (hchain hcached)
    exact Except.ok.inj (hknown.symm.trans hresolved)
  · refine iff_of_false ?_ hpath
    intro hsame
    obtain ⟨json, hcustom⟩ := hresolved
    have hid := hchain hcached
    rw [hsame, hcustom] at hid
    cases hid

end Invocations

section Sample

def raiseEnv : Environment String where
  var _ := none
  parse := .ok
  getChainId _ := .ok 1
  readToString _ := .error "No such file or directory"

def raiseArgs (rpcUrl : Option String) : HostArgs String :=
  ⟨1, rpcUrl, none, none, none, none, false, some "cache", false⟩

/-- An invocation without a provider, one whose file is broken off, and one that writes it. -/
def raiseInvocations : List (Invocation String Unit Unit Unit) :=
  [⟨raiseEnv, raiseArgs none, raiseOutside raiseHost none⟩,
    ⟨raiseEnv, raiseArgs (some "rpc"), raiseOutside raiseHost (some 0)⟩,
    ⟨raiseEnv, raiseArgs (some "rpc"), raiseOutside raiseHost none⟩]

theorem handed_own_iff_raise :
    (∀ (outside : Outside Unit Unit Unit) input store,
      obtainInput raiseCodec.toInputCodec outside raiseRun
          (storeAfter raiseCodec.toInputCodec (jobsOf noFiles raiseInvocations)) = .ok input store →
        ∃ host, Sources (jobsOf noFiles raiseInvocations) outside raiseRun host ∧ hostInput host raiseRun = some input) ↔
      ∀ cached, clientInputFromCache raiseCodec.toInputCodec
          (storeAfter raiseCodec.toInputCodec (jobsOf noFiles raiseInvocations)).files raiseRun = some cached →
        (raiseArgs (some "rpc")).genesisPath = none ∧
          cached.customBeneficiary = (raiseArgs (some "rpc")).customBeneficiary := by
  have hchains : ∀ invocation ∈ raiseInvocations, invocation.outside.host.KnowsChains := by
    intro invocation hmem
    simp only [raiseInvocations, List.mem_cons, List.not_mem_nil, or_false] at hmem
    rcases hmem with rfl | rfl | rfl
    · exact raiseHost_knowsChains
    · exact raiseHost_knowsChains
    · exact raiseHost_knowsChains
  exact @handed_own_iff _ _ _ _ raiseEnv noFiles raiseCodec _ hchains (raiseArgs (some "rpc")) raiseRun
    false rfl

end Sample

end RethProcessor.HostCommand
