import RethProcessor.TrieOrphan
import RethProcessor.TrieCache
import RethProcessor.TrieTransition
import RethProcessor.StateOrder
import RethProcessor.StatePost
import RethProcessor.BlockHashes
import RethProcessor.InputCache
import RethProcessor.StorageReads
import RethProcessor.HeaderChain
import RethProcessor.HeaderChecks
import RethProcessor.CsvReport
import RethProcessor.TrieRefusal
import RethProcessor.TrieImage
import RethProcessor.ProofOrder
import RethProcessor.PathBytes
import RethProcessor.HonestState
import RethProcessor.ClientExecutor
import RethProcessor.Continuous
import RethProcessor.WitnessRpcDb
import RethProcessor.HostCommand
