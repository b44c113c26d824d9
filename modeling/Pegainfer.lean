import Pegainfer.Lib.Machine
import Pegainfer.Lib.Table
import Pegainfer.Lib.Custody
import Pegainfer.Lib.SwapRemove
import Pegainfer.Lib.Books
import Pegainfer.Lib.Codec
import Pegainfer.Frontend.Step
import Pegainfer.Frontend.Ledger
import Pegainfer.Frontend.Lifecycle
import Pegainfer.Frontend.Stream
import Pegainfer.Kvbm.Store
import Pegainfer.Kvbm.StoreInv
import Pegainfer.Kvbm.StoreSpec
import Pegainfer.Kvbm.Sequence
import Pegainfer.Kvbm.Calls
import Pegainfer.Kvbm.Positions
import Pegainfer.Kvbm.Computed
import Pegainfer.Kvbm.Speculative
import Pegainfer.Kvbm.CallStore
import Pegainfer.Kvbm.Draws
import Pegainfer.Kvbm.Carried
import Pegainfer.Kvbm.Naming
import Pegainfer.Kvbm.FreeList
import Pegainfer.KvStore.Pool
import Pegainfer.KvStore.Blocks
import Pegainfer.KvStore.Partition
import Pegainfer.KvStore.Entitlement
import Pegainfer.KvStore.Admission
import Pegainfer.KvStore.Resolve
import Pegainfer.KvStore.ResolveSafe
import Pegainfer.KvStore.Rows
import Pegainfer.KvStore.RowsWritten
import Pegainfer.Qwen3.Executor
import Pegainfer.Qwen3.Scheduler
import Pegainfer.Qwen3.Adapter
import Pegainfer.Qwen3.Standing
import Pegainfer.Qwen3.Custody
import Pegainfer.Qwen3.Moves
import Pegainfer.Qwen3.ControlOrder
import Pegainfer.K3.Gang
import Pegainfer.K3.Whale
import Pegainfer.K3.Rendezvous
import Pegainfer.K3.Wire
import Pegainfer.K3.Exchange
import Pegainfer.Glm52.Slot
import Pegainfer.Glm52.Lossless
import Pegainfer.Glm52.Handoff
import Pegainfer.Glm52.Lockstep
import Pegainfer.Lib.Ragged
import Pegainfer.Gemma4.Kv
import Pegainfer.Gemma4.DecodePlan
import Pegainfer.Gemma4.Steady
import Pegainfer.Gemma4.Pipeline
import Pegainfer.Gemma4.PipelineBook
import Pegainfer.Gemma4.PipelineRounds
import Pegainfer.Gemma4.PipelineIntake
import Pegainfer.Gemma4.StagedDecode
import Pegainfer.KvCache.Pool
import Pegainfer.KvCache.Reserve
import Pegainfer.KimiK2.Lifecycle
import Pegainfer.KimiK2.Settle
import Pegainfer.KimiK2.Wave
import Pegainfer.KimiK2.WaveLedger
import Pegainfer.KimiK2.Dp
import Pegainfer.KimiK2.DpRank
import Pegainfer.KimiK2.DpLedger
import Pegainfer.KvOffload.Flush
import Pegainfer.Gemma4.Account
import Pegainfer.Lib.Holdings
import Pegainfer.Lib.Paged
import Pegainfer.Gemma4.PrefixCache
import Pegainfer.Gemma4.Checkpoint
import Pegainfer.Gemma4.KvRuns
import Pegainfer.Dsv2Lite.Generator
import Pegainfer.Dsv2Lite.Scheduler
import Pegainfer.Dsv2Lite.Intake
import Pegainfer.Dsv2Lite.Isolation
import Pegainfer.Qwen3.LoraExecutor
import Pegainfer.Qwen3.Names
import Pegainfer.Qwen3.LoraIdentity
import Pegainfer.Frontend.Stats
import Pegainfer.Qwen3.StepResponses
import Pegainfer.Qwen3.Chunks
import Pegainfer.Qwen3.Stages
import Pegainfer.Qwen3.BatchInvariance
import Pegainfer.Qwen3.SpeculativeDecode
import Pegainfer.KvStore.PageRows
import Pegainfer.KvStore.Schedules
import Pegainfer.Lib.Faulty
import Pegainfer.Qwen3.LoraRegistry
import Pegainfer.Qwen3.LoraAgreement
import Pegainfer.Qwen3.LoraRuns
import Pegainfer.Frontend.Reduce
import Pegainfer.Frontend.SteppedBridge
import Pegainfer.KvStore.Arenas
import Pegainfer.Glm52.StepPlan
import Pegainfer.Lib.Ladder
import Pegainfer.Qwen35.Capacity
import Pegainfer.Lib.Cbor
import Pegainfer.Lib.HashChain
import Pegainfer.KvOffload.VllmHash
import Pegainfer.Lib.Cells
import Pegainfer.Lib.DoubleBuffer
import Pegainfer.Core.Staging
import Pegainfer.Core.StagedUpload
import Pegainfer.Lib.FlatMatrix
import Pegainfer.Qwen3.LoraShard
import Pegainfer.Lib.Ranking
import Pegainfer.Qwen35.PrefillChunks
import Pegainfer.K3.CpSegments
import Pegainfer.Lib.Speculative
import Pegainfer.K3.PagedKv
import Pegainfer.Core.SplitKv
import Pegainfer.Lib.Owners
import Pegainfer.Qwen3.LoraApply
import Pegainfer.Qwen3.LoraBatches
import Pegainfer.K3.Verify
import Pegainfer.K3.VerifyDevice
import Pegainfer.K3.VerifyRounds
import Pegainfer.K3.SpecRounds
import Pegainfer.K3.PlainDecode
