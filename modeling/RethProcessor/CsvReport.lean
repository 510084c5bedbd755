import RethProcessor.BlockHashes

/-! The report of the host: one row of figures for each block that was executed, under one header.
The header and the rows come from two functions, and a writer checks them against one another only
within one call. -/
namespace RethProcessor

def PRECOMPILES : List String :=
  ["ecrecover", "sha256", "ripemd160", "identity", "modexp", "bn-add", "bn-mul", "bn-pair", "blake2f",
    "kzg-point-evaluation"]

def DESERIALZE_INPUTS : String := "deserialize inputs"

def INIT_WITNESS_DB : String := "initialize witness db"

def RECOVER_SENDERS : String := "recover senders"

def BLOCK_EXECUTION : String := "block execution"

def VALIDATE_EXECUTION : String := "validate block post-execution"

def COMPUTE_STATE_ROOT : String := "compute state root"

abbrev Row := List String

structure ExecutionReport (SyscallCode : Type) where
  totalInstructionCount : UInt64
  totalSyscallCount : UInt64
  cycleTracker : HashMap String UInt64
  syscallCounts : SyscallCode → UInt64

def ExecutionReport.cycles {SyscallCode : Type} (report : ExecutionReport SyscallCode) (name : String) : UInt64 :=
  (report.cycleTracker.lookup name).getD 0

structure PersistExecutionReport where
  chainId : UInt64
  precompileTracking : Bool
  opcodeTracking : Bool

/-- The tables of other crates that the columns follow. -/
structure Tables (SyscallCode : Type) where
  /-- `OPCODE_INFO`, by the names in it. -/
  opcodeInfo : List (Option String)
  /-- `SyscallCode::iter`. -/
  syscalls : List SyscallCode
  display : SyscallCode → String

/-- `add_metrics`: what it adds to the record. -/
def addMetrics {SyscallCode : Type} (name : String) (report : ExecutionReport SyscallCode) : Row :=
  [toString (report.cycles name), toString 0, toString 0]

namespace PersistExecutionReport
variable {SyscallCode Tx : Type} (tables : Tables SyscallCode) (hook : PersistExecutionReport)

/-- The record that `write_header` writes. -/
def headers : Row :=
  ["chain_id", "block_number", "gas_used", "tx_count"] ++
    if hook.opcodeTracking then
      tables.opcodeInfo.reduceOption.flatMap fun x => [x.toLower, "count", "avg"]
    else
      ["total_cycles_count", "deserialize_inputs_cycles_count", "initialize_witness_db_cycles_count",
        "recover_senders_cycles_count", "block_execution_cycles_count", "block_validation_cycles_count",
        "accrue_logs_bloom_cycles_count", "state_root_computation_cycles_count", "syscalls_count", "prover_gas"] ++
      tables.syscalls.map (fun s => (tables.display s).toLower) ++
      if hook.precompileTracking then PRECOMPILES.flatMap fun x => [x, "count", "avg"] else []

/-- The record that `write_record` writes. -/
def record (block : Block (List Tx)) (report : ExecutionReport SyscallCode) : Row :=
  [toString hook.chainId, toString block.header.number, toString block.header.gasUsed, toString block.body.length] ++
    if hook.opcodeTracking then
      tables.opcodeInfo.reduceOption.flatMap fun o => addMetrics ("opcode-" ++ o.toLower) report
    else
      [toString report.totalInstructionCount, toString (report.cycles DESERIALZE_INPUTS),
        toString (report.cycles INIT_WITNESS_DB), toString (report.cycles RECOVER_SENDERS),
        toString (report.cycles BLOCK_EXECUTION), toString (report.cycles VALIDATE_EXECUTION),
        toString (report.cycles COMPUTE_STATE_ROOT), toString report.totalSyscallCount, toString 0] ++
      tables.syscalls.map (fun s => toString (report.syscallCounts s)) ++
      if hook.precompileTracking then PRECOMPILES.flatMap fun p => addMetrics ("precompile-" ++ p) report else []

end PersistExecutionReport

/-- `UnequalLengths`, the one error of the writer. -/
structure CsvError where
  expectedLen : Nat
  len : Nat
  deriving DecidableEq

/-- A writer that appends to a file. It is not flexible: its records are as long as its first. -/
structure Writer where
  file : List Row
  firstFieldCount : Option Nat

section Writer
variable (rejected : List Row → Row → List Row)

/-- `write_record` of the csv crate, where `rejected` is what a refused record leaves in the file. -/
def Writer.writeRecord (writer : Writer) (record : Row) : Except CsvError Unit × Writer :=
  match writer.firstFieldCount with
  | none => (.ok (), ⟨writer.file ++ [record], some record.length⟩)
  | some expected =>
      if expected = record.length then (.ok (), ⟨writer.file ++ [record], some expected⟩)
      else (.error ⟨expected, record.length⟩, ⟨rejected writer.file record, some expected⟩)

variable {SyscallCode Tx : Type} (tables : Tables SyscallCode) (hook : PersistExecutionReport)

/-- `on_execution_end`, with the rows of the report afterwards. The path may not exist before. -/
def onExecutionEnd (path : Option (List Row)) (call : Block (List Tx) × ExecutionReport SyscallCode) :
    Except CsvError Unit × Option (List Row) :=
  let writer : Writer := ⟨path.getD [], none⟩
  let (result, writer) :=
    if writer.file.isEmpty then writer.writeRecord rejected (hook.headers tables) else (.ok (), writer)
  match result with
  | .error e => (.error e, some writer.file)
  | .ok () =>
      let (result, writer) := writer.writeRecord rejected (hook.record tables call.1 call.2)
      (result, some writer.file)

/-- The calls of a history one after the other, each with its result. -/
def onExecutionEnds (path : Option (List Row)) :
    List (Block (List Tx) × ExecutionReport SyscallCode) → List (Except CsvError Unit) × Option (List Row)
  | [] => ([], path)
  | call :: calls =>
      let (result, path) := onExecutionEnd rejected tables hook path call
      let (results, path) := onExecutionEnds path calls
      (result :: results, path)

end Writer

/-- An execution: its report, and what the report does not have, how often the code under a name was
run and the gas of the prover. -/
structure Execution (SyscallCode : Type) where
  report : ExecutionReport SyscallCode
  invocationTracker : HashMap String UInt64
  gas : Option UInt64

def Execution.invocations {SyscallCode : Type} (execution : Execution SyscallCode) (name : String) : UInt64 :=
  (execution.invocationTracker.lookup name).getD 0

/-- A column of the report: its name, and the quantity that the name is for. -/
structure Column (SyscallCode Tx : Type) where
  name : String
  quantity : Block (List Tx) → Execution SyscallCode → String

section Columns
variable {SyscallCode Tx : Type}

def Column.cycles (name key : String) : Column SyscallCode Tx :=
  ⟨name, fun _ execution => toString (execution.report.cycles key)⟩

/-- The columns of what is tracked under `key`: its cycles, its invocations, and the cycles of one of
these, which are zero where there is none. -/
def Column.metrics (name key : String) : List (Column SyscallCode Tx) :=
  [Column.cycles name key, ⟨"count", fun _ execution => toString (execution.invocations key)⟩,
    ⟨"avg", fun _ execution => toString (execution.report.cycles key / execution.invocations key)⟩]

/-- The columns that the report is to have, by what its header names. -/
def PersistExecutionReport.columns (Tx : Type) (tables : Tables SyscallCode) (hook : PersistExecutionReport) :
    List (Column SyscallCode Tx) :=
  [⟨"chain_id", fun _ _ => toString hook.chainId⟩,
    ⟨"block_number", fun block _ => toString block.header.number⟩,
    ⟨"gas_used", fun block _ => toString block.header.gasUsed⟩,
    ⟨"tx_count", fun block _ => toString block.body.length⟩] ++
    if hook.opcodeTracking then
      tables.opcodeInfo.reduceOption.flatMap fun o => Column.metrics o.toLower ("opcode-" ++ o.toLower)
    else
      [⟨"total_cycles_count", fun _ execution => toString execution.report.totalInstructionCount⟩,
        Column.cycles "deserialize_inputs_cycles_count" DESERIALZE_INPUTS,
        Column.cycles "initialize_witness_db_cycles_count" INIT_WITNESS_DB,
        Column.cycles "recover_senders_cycles_count" RECOVER_SENDERS,
        Column.cycles "block_execution_cycles_count" BLOCK_EXECUTION,
        Column.cycles "block_validation_cycles_count" VALIDATE_EXECUTION,
        Column.cycles "accrue_logs_bloom_cycles_count" "accrue logs bloom",
        Column.cycles "state_root_computation_cycles_count" COMPUTE_STATE_ROOT,
        ⟨"syscalls_count", fun _ execution => toString execution.report.totalSyscallCount⟩,
        ⟨"prover_gas", fun _ execution => toString (execution.gas.getD 0)⟩] ++
      tables.syscalls.map
        (fun s => ⟨(tables.display s).toLower, fun _ execution => toString (execution.report.syscallCounts s)⟩) ++
      if hook.precompileTracking then PRECOMPILES.flatMap fun p => Column.metrics p ("precompile-" ++ p) else []

/-- Over a path that is absent or empty every call succeeds, and the file is the header and, for each call,
the row of its quantities. -/
def PersistExecutionReport.Aligned (rejected : List Row → Row → List Row) (tables : Tables SyscallCode)
    (hook : PersistExecutionReport) (calls : List (Block (List Tx) × Execution SyscallCode)) : Prop :=
  ∀ path : Option (List Row), path.getD [] = [] →
    let reports := calls.map fun call => (call.1, call.2.report)
    (∀ result ∈ (onExecutionEnds rejected tables hook path reports).1, result = .ok ()) ∧
    (calls ≠ [] → (onExecutionEnds rejected tables hook path reports).2 =
      some ((hook.columns Tx tables).map Column.name ::
        calls.map fun call => (hook.columns Tx tables).map fun column => column.quantity call.1 call.2))

end Columns

section Exact
variable {SyscallCode Tx : Type} (rejected : List Row → Row → List Row) (tables : Tables SyscallCode)
  {hook : PersistExecutionReport} {path : Option (List Row)} (call : Block (List Tx) × ExecutionReport SyscallCode)

theorem headers_eq_columns (Tx : Type) : hook.headers tables = (hook.columns Tx tables).map Column.name := by
  rw [PersistExecutionReport.headers, PersistExecutionReport.columns, List.map_append]
  congr 1
  cases hook.opcodeTracking with
  | true =>
      simp only [↓reduceIte, List.map_flatMap]
      rfl
  | false =>
      rw [if_neg Bool.false_ne_true, if_neg Bool.false_ne_true, List.map_append, List.map_append, List.map_map]
      congr 1
      cases hook.precompileTracking with
      | true =>
          simp only [↓reduceIte, List.map_flatMap]
          rfl
      | false => rfl

theorem toString_eq_zero {n : UInt64} : toString n = toString (0 : Nat) ↔ n = 0 := by
  constructor
  · intro h
    have hrepr : n.toNat.repr = "0" := h
    have hdigit : n.toNat < 10 := by
      rw [← Nat.pow_one 10, ← Nat.length_repr_le_iff Nat.one_pos, hrepr]
      decide
    rw [Nat.repr_of_lt hdigit, show "0" = String.singleton '0' from rfl, String.singleton_inj] at hrepr
    have hzero : ∀ k < 10, Nat.digitChar k = '0' → k = 0 := by decide
    exact UInt64.toNat_inj.mp (hzero _ hdigit hrepr)
  · rintro rfl
    rfl

theorem flatMap_inj {α β : Type} {f g : α → List β} {l : List α} (hlen : ∀ x ∈ l, (f x).length = (g x).length) :
    l.flatMap f = l.flatMap g ↔ ∀ x ∈ l, f x = g x := by
  induction l with
  | nil => simp
  | cons x l ih =>
      obtain ⟨hx, hl⟩ := List.forall_mem_cons.mp hlen
      rw [List.flatMap_cons, List.flatMap_cons, List.forall_mem_cons, ← ih hl]
      exact ⟨fun h => List.append_inj h hx, fun h => by rw [h.1, h.2]⟩

/-- What is added for a name are its quantities when the code under it was never run. -/
theorem addMetrics_eq_iff (name key : String) (block : Block (List Tx)) (execution : Execution SyscallCode) :
    addMetrics key execution.report = (Column.metrics name key).map (fun column => column.quantity block execution) ↔
      execution.invocations key = 0 := by
  simp only [addMetrics, Column.metrics, Column.cycles, List.map_cons, List.map_nil, List.cons.injEq, and_true, true_and]
  constructor
  · rintro ⟨hcount, -⟩
    exact toString_eq_zero.mp hcount.symm
  · intro hcount
    rw [hcount]
    refine ⟨rfl, ?_⟩
    rw [UInt64.div_zero]
    rfl

/-- With opcode tracking the record is as long as the columns, and follows them when no opcode was run. -/
theorem record_eq_columns_iff (h : hook.opcodeTracking = true) (block : Block (List Tx)) (execution : Execution SyscallCode) :
    hook.record tables block execution.report =
        (hook.columns Tx tables).map (fun column => column.quantity block execution) ↔
      ∀ o ∈ tables.opcodeInfo.reduceOption, execution.invocations ("opcode-" ++ o.toLower) = 0 := by
  rw [PersistExecutionReport.record, PersistExecutionReport.columns, List.map_append]
  simp only [h, ↓reduceIte, List.map_flatMap]
  change (_ ++ _ = _ ++ _) ↔ _
  rw [List.map_cons, List.map_cons, List.map_cons, List.map_cons, List.map_nil, List.append_right_inj]
  refine (flatMap_inj ?_).trans ?_
  · intro o _
    rfl
  · simp only [addMetrics_eq_iff]

theorem length_record (h : hook.opcodeTracking = true) :
    (hook.headers tables).length = (hook.record tables call.1 call.2).length := by
  rw [PersistExecutionReport.headers, PersistExecutionReport.record]
  simp only [h, ↓reduceIte, List.length_append, List.length_flatMap, addMetrics, List.length_cons, List.length_nil]

/-- Without opcode tracking the record is one field short: no cycles stand for `accrue_logs_bloom`. -/
theorem length_headers (h : hook.opcodeTracking = false) :
    (hook.headers tables).length = (hook.record tables call.1 call.2).length + 1 := by
  rw [PersistExecutionReport.headers, PersistExecutionReport.record]
  simp only [h, Bool.false_eq_true, ↓reduceIte, List.length_append, List.length_map, List.length_cons,
    List.length_nil]
  cases hook.precompileTracking with
  | true =>
      simp only [↓reduceIte, List.length_flatMap, addMetrics, List.length_cons, List.length_nil]
      omega
  | false =>
      simp only [Bool.false_eq_true, ↓reduceIte, List.length_nil]
      omega

theorem onExecutionEnd_append {file : List Row} (hfile : file ≠ []) :
    onExecutionEnd rejected tables hook (some file) call =
      (.ok (), some (file ++ [hook.record tables call.1 call.2])) := by
  cases file with
  | nil => exact absurd rfl hfile
  | cons row file => rfl

/-- A fresh report takes its header, and the record if it is as long. -/
theorem onExecutionEnd_fresh (hpath : path.getD [] = []) : onExecutionEnd rejected tables hook path call =
    if (hook.headers tables).length = (hook.record tables call.1 call.2).length then
      (.ok (), some [hook.headers tables, hook.record tables call.1 call.2])
    else
      (.error ⟨(hook.headers tables).length, (hook.record tables call.1 call.2).length⟩,
        some (rejected [hook.headers tables] (hook.record tables call.1 call.2))) := by
  rw [onExecutionEnd, hpath]
  change (let (result, writer) := Writer.writeRecord rejected ⟨[hook.headers tables],
    some (hook.headers tables).length⟩ (hook.record tables call.1 call.2); (result, some writer.file)) = _
  rw [Writer.writeRecord]
  dsimp only
  split
  · rfl
  · rfl

/-- A report that is under way takes the record of every call. -/
theorem onExecutionEnds_append (calls : List (Block (List Tx) × ExecutionReport SyscallCode)) {file : List Row}
    (hfile : file ≠ []) : onExecutionEnds rejected tables hook (some file) calls =
      (List.replicate calls.length (.ok ()),
        some (file ++ calls.map fun call => hook.record tables call.1 call.2)) := by
  induction calls generalizing file with
  | nil =>
      rw [List.map_nil, List.append_nil]
      rfl
  | cons call calls ih =>
      have hrest := ih (List.append_ne_nil_of_left_ne_nil hfile [hook.record tables call.1 call.2])
      rw [List.append_assoc] at hrest
      rw [onExecutionEnds, onExecutionEnd_append rejected tables call hfile]
      dsimp only
      rw [hrest]
      rfl

/-- The report stays aligned exactly when opcodes are tracked and none of them was run, or nothing is
reported. -/
theorem aligned_iff (hook : PersistExecutionReport) (calls : List (Block (List Tx) × Execution SyscallCode)) :
    hook.Aligned rejected tables calls ↔ calls = [] ∨ (hook.opcodeTracking = true ∧
      ∀ call ∈ calls, ∀ o ∈ tables.opcodeInfo.reduceOption, call.2.invocations ("opcode-" ++ o.toLower) = 0) := by
  cases calls with
  | nil =>
      apply iff_of_true _ (.inl rfl)
      intro path hpath
      exact ⟨List.forall_mem_nil _, fun h => absurd rfl h⟩
  | cons call calls =>
      rw [or_iff_right (List.cons_ne_nil call calls)]
      have hrun (hopcode : hook.opcodeTracking = true) {path : Option (List Row)} (hpath : path.getD [] = []) :
          onExecutionEnds rejected tables hook path ((call :: calls).map fun call => (call.1, call.2.report)) =
            (List.replicate (calls.length + 1) (.ok ()), some (hook.headers tables ::
              (call :: calls).map fun c => hook.record tables c.1 c.2.report)) := by
        rw [List.map_cons, onExecutionEnds, onExecutionEnd_fresh rejected tables _ hpath, if_pos (length_record tables _ hopcode)]
        dsimp only
        rw [onExecutionEnds_append rejected tables _ (List.cons_ne_nil _ _), List.length_map, List.map_map]
        rfl
      constructor
      · intro haligned
        have hopcode : hook.opcodeTracking = true := by
          by_contra hopcode
          have hlen := length_headers tables (call.1, call.2.report) (Bool.not_eq_true _ ▸ hopcode)
          have hfirst := @onExecutionEnd_fresh _ _ rejected tables hook none (call.1, call.2.report) rfl
          rw [if_neg (by omega)] at hfirst
          have hok := (haligned none rfl).1 (.error ⟨_, _⟩) (by
            rw [List.map_cons, onExecutionEnds, hfirst]
            exact List.mem_cons_self)
          cases hok
        have hfile := (haligned none rfl).2 (List.cons_ne_nil call calls)
        rw [hrun hopcode rfl, Option.some.injEq, List.cons.injEq] at hfile
        refine ⟨hopcode, ?_⟩
        intro c hc
        exact (record_eq_columns_iff tables hopcode c.1 c.2).mp (List.map_inj_left.mp hfile.2 c hc)
      · rintro ⟨hopcode, hnone⟩ path hpath
        dsimp only
        rw [hrun hopcode hpath]
        refine ⟨fun result hresult => List.eq_of_mem_replicate hresult, fun _ => ?_⟩
        rw [headers_eq_columns tables Tx, Option.some.injEq, List.cons.injEq]
        refine ⟨rfl, List.map_inj_left.mpr ?_⟩
        intro c hc
        exact (record_eq_columns_iff tables hopcode c.1 c.2).mpr (hnone c hc)

/-- By default nothing is tracked: the first record is refused. -/
theorem untracked_not_aligned : ¬ PersistExecutionReport.Aligned (fun file _ => file)
    ⟨[some "STOP"], ["HALT"], id⟩ ⟨1, false, false⟩
    [(⟨(emptyBlock 1 B256.ZERO B256.ZERO).rebuild, ([] : List Unit)⟩, ⟨⟨0, 0, ∅, fun _ => 0⟩, ∅, none⟩)] := by
  intro haligned
  have hok := (haligned none rfl).1 (.error ⟨15, 14⟩) List.mem_cons_self
  cases hok

end Exact

end RethProcessor
