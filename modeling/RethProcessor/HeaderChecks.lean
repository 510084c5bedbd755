import RethProcessor.BlockHashes

/-! The consensus checks of one header. The validator of reth is a list of checks that stops at the
first error; Linea's chains are let off two of the errors. -/
namespace RethProcessor
open Calls

/-- The errors of the validator. The code tells two of them from the rest. -/
inductive ConsensusError (Other : Type) where
  | extraDataExceedsMax (len : Nat)
  | theMergeDifficultyIsNotZero
  | other (e : Other)
  deriving DecidableEq

inductive NamedChain where
  | linea
  | lineaSepolia
  | lineaGoerli
  | other (id : UInt64)
  deriving DecidableEq

structure ChainSpec where
  chainId : UInt64

section Validator
variable {Other : Type}

/-- `EthBeaconConsensus::validate_header`, for the checks that it makes in turn. -/
def EthBeaconConsensus.validateHeader (checks : List (SealedHeader → Except (ConsensusError Other) Unit))
    (header : SealedHeader) : Except (ConsensusError Other) Unit := checks.forM fun check => check header

variable (tryFrom : UInt64 → Option NamedChain)

def handleCustomChains (result : Except (ConsensusError Other) Unit) (chainSpec : ChainSpec) :
    Except (ConsensusError Other) Unit :=
  match result with
  | .ok () => .ok ()
  | .error err =>
      match tryFrom chainSpec.chainId with
      | none => .error err
      | some chain =>
          match chain with
          | .linea | .lineaSepolia | .lineaGoerli =>
              match err with
              | .extraDataExceedsMax _ | .theMergeDifficultyIsNotZero => .ok ()
              | err => .error err
          | _ => .error err

/-- `BlockValidator::validate_header` of `EthPrimitives`. -/
def validateHeader (checks : List (SealedHeader → Except (ConsensusError Other) Unit)) (header : SealedHeader)
    (chainSpec : ChainSpec) : Except (ConsensusError Other) Unit :=
  handleCustomChains tryFrom (EthBeaconConsensus.validateHeader checks header) chainSpec

/-- The two errors that Linea's headers may cause. -/
def ConsensusError.Exempt (e : ConsensusError Other) : Prop :=
  (∃ len, e = .extraDataExceedsMax len) ∨ e = .theMergeDifficultyIsNotZero

def NamedChain.OfLinea (chain : NamedChain) : Prop := chain = .linea ∨ chain = .lineaSepolia ∨ chain = .lineaGoerli

def ChainSpec.OfLinea (chainSpec : ChainSpec) : Prop := ∃ chain ∈ tryFrom chainSpec.chainId, chain.OfLinea

/-- Linea's headers are let off the two errors, whatever else is checked; other headers are let off nothing. -/
def SkipsTwoChecks (checks : List (SealedHeader → Except (ConsensusError Other) Unit)) (header : SealedHeader)
    (chainSpec : ChainSpec) : Prop :=
  (chainSpec.OfLinea tryFrom → (validateHeader tryFrom checks header chainSpec = .ok () ↔
    ∀ check ∈ checks, ∀ e, check header = .error e → e.Exempt)) ∧
  (¬ chainSpec.OfLinea tryFrom → (validateHeader tryFrom checks header chainSpec = .ok () ↔
    ∀ check ∈ checks, check header = .ok ()))

/-- No check with another error fails behind an exempt failure that is the first. -/
def NothingBehindExempt (checks : List (SealedHeader → Except (ConsensusError Other) Unit))
    (header : SealedHeader) : Prop :=
  ∀ before check after e, checks = before ++ check :: after → (∀ c ∈ before, c header = .ok ()) →
    check header = .error e → e.Exempt → ∀ later ∈ after, ∀ e', later header = .error e' → e'.Exempt

end Validator

section Exact
variable {Other : Type} {tryFrom : UInt64 → Option NamedChain} {chainSpec : ChainSpec}

theorem handleCustomChains_ok_iff {result : Except (ConsensusError Other) Unit} :
    handleCustomChains tryFrom result chainSpec = .ok () ↔
      result = .ok () ∨ chainSpec.OfLinea tryFrom ∧ ∃ e, result = .error e ∧ e.Exempt := by
  cases result with
  | ok u => exact iff_of_true rfl (.inl rfl)
  | error err =>
      rw [or_iff_right error_ne_ok]
      unfold handleCustomChains
      cases hchain : tryFrom chainSpec.chainId with
      | none =>
          apply iff_of_false error_ne_ok
          rintro ⟨⟨chain, hmem, -⟩, -⟩
          rw [hchain] at hmem
          cases hmem
      | some chain =>
          have hlinea : chainSpec.OfLinea tryFrom ↔ chain.OfLinea := by
            rw [ChainSpec.OfLinea, hchain]
            exact ⟨fun ⟨_, hmem, h⟩ => Option.some.inj hmem ▸ h, fun h => ⟨chain, rfl, h⟩⟩
          have herr : (∃ e, Except.error (α := Unit) err = .error e ∧ e.Exempt) ↔ err.Exempt :=
            ⟨fun ⟨_, h, hexempt⟩ => Except.error.inj h ▸ hexempt, fun h => ⟨err, rfl, h⟩⟩
          rw [hlinea, herr]
          cases chain <;> cases err <;> simp [NamedChain.OfLinea, ConsensusError.Exempt]

theorem validateHeader_ok_iff {checks : List (SealedHeader → Except (ConsensusError Other) Unit)}
    {header : SealedHeader} : validateHeader tryFrom checks header chainSpec = .ok () ↔
      (∀ check ∈ checks, check header = .ok ()) ∨ chainSpec.OfLinea tryFrom ∧
        ∃ before check after e, checks = before ++ check :: after ∧ (∀ c ∈ before, c header = .ok ()) ∧
          check header = .error e ∧ e.Exempt := by
  rw [validateHeader, EthBeaconConsensus.validateHeader, handleCustomChains_ok_iff, forM_ok_iff]
  refine or_congr_right (and_congr_right fun _ => ⟨?_, ?_⟩)
  · rintro ⟨e, he, hexempt⟩
    obtain ⟨before, check, after, hchecks, hbefore, hcheck⟩ := forM_error_iff.mp he
    exact ⟨before, check, after, e, hchecks, hbefore, hcheck, hexempt⟩
  · rintro ⟨before, check, after, e, hchecks, hbefore, hcheck, hexempt⟩
    exact ⟨e, forM_error_iff.mpr ⟨before, check, after, hchecks, hbefore, hcheck⟩, hexempt⟩

/-- A header is let off exactly the two checks when no other check fails behind the one that is let off. -/
theorem skipsTwoChecks_iff (tryFrom : UInt64 → Option NamedChain)
    (checks : List (SealedHeader → Except (ConsensusError Other) Unit)) (header : SealedHeader)
    (chainSpec : ChainSpec) : SkipsTwoChecks tryFrom checks header chainSpec ↔
      (chainSpec.OfLinea tryFrom → NothingBehindExempt checks header) := by
  have hother (hlinea : ¬ chainSpec.OfLinea tryFrom) : validateHeader tryFrom checks header chainSpec = .ok () ↔
      ∀ check ∈ checks, check header = .ok () := by
    rw [validateHeader_ok_iff, or_iff_left fun h => hlinea h.1]
  rw [SkipsTwoChecks, and_iff_left hother]
  refine forall_congr' fun hlinea => ?_
  rw [validateHeader_ok_iff]
  constructor
  · intro hskips before check after e hchecks hbefore hcheck hexempt later hlater e' he'
    have hall := hskips.mp (.inr ⟨hlinea, before, check, after, e, hchecks, hbefore, hcheck, hexempt⟩)
    exact hall later (hchecks ▸ List.mem_append_right _ (List.mem_cons_of_mem _ hlater)) e' he'
  · intro hbehind
    constructor
    · rintro (hok | ⟨-, before, check, after, e, rfl, hbefore, hcheck, hexempt⟩) c hc e' he'
      · rw [hok c hc] at he'
        cases he'
      · rcases List.mem_append.mp hc with hc | hc
        · rw [hbefore c hc] at he'
          cases he'
        · rcases List.mem_cons.mp hc with rfl | hc
          · rw [hcheck] at he'
            cases he'
            exact hexempt
          · exact hbehind before check after e rfl hbefore hcheck hexempt c hc e' he'
    · intro hall
      cases hresult : checks.forM fun check => check header with
      | ok u => exact .inl (forM_ok_iff.mp hresult)
      | error e =>
          obtain ⟨before, check, after, hchecks, hbefore, hcheck⟩ := forM_error_iff.mp hresult
          have hmem : check ∈ checks := hchecks ▸ List.mem_append_right _ List.mem_cons_self
          exact .inr ⟨hlinea, before, check, after, e, hchecks, hbefore, hcheck, hall check hmem e hcheck⟩

end Exact

/-- reth's checks of the difficulty after the Merge, and of the gas used. -/
def difficultyCheck (sealed : SealedHeader) : Except (ConsensusError String) Unit :=
  if sealed.header.difficulty ≠ 0 then .error .theMergeDifficultyIsNotZero else .ok ()

def gasCheck (sealed : SealedHeader) : Except (ConsensusError String) Unit :=
  if sealed.header.gasUsed > sealed.header.gasLimit then .error (.other "HeaderGasUsedExceedsGasLimit") else .ok ()

def lineaChain (id : UInt64) : Option NamedChain := if id = 59144 then some .linea else none

/-- A header of Linea, with its difficulty, that uses more gas than its limit. -/
def overspentHeader : SealedHeader where
  header := { (emptyBlock 1 B256.ZERO B256.ZERO).rebuild with difficulty := 2, gasUsed := 1 }
  hash := B256.ZERO

theorem overspentHeader_accepted :
    ¬ SkipsTwoChecks lineaChain [difficultyCheck, gasCheck] overspentHeader ⟨59144⟩ := by
  rintro ⟨hlinea, -⟩
  have haccepted : validateHeader lineaChain [difficultyCheck, gasCheck] overspentHeader ⟨59144⟩ = .ok () := rfl
  have hall := (hlinea ⟨.linea, rfl, .inl rfl⟩).mp haccepted
  have hgas : gasCheck overspentHeader = .error (.other "HeaderGasUsedExceedsGasLimit") := rfl
  rcases hall gasCheck (List.mem_cons_of_mem _ List.mem_cons_self) _ hgas with ⟨len, h⟩ | h
  · cases h
  · cases h

end RethProcessor
