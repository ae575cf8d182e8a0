import CfxMinimalExecution.Cfxpack.CollectFiles
import CfxMinimalExecution.Cfxpack.DocumentedLoss
import CfxMinimalExecution.Cfxpack.ParserSafety
import CfxMinimalExecution.Cfxpack.SplitRecords
import CfxMinimalExecution.Cfxpack.VerifyEncoded
import CfxMinimalExecution.Extractor.DirectorySafety
import CfxMinimalExecution.Extractor.Extracted
import CfxMinimalExecution.Extractor.FileNames
import CfxMinimalExecution.Extractor.FlagPatchContainer
import CfxMinimalExecution.Extractor.FlagPatchRun
import CfxMinimalExecution.Extractor.PackOrder
import CfxMinimalExecution.Extractor.PackRun
import CfxMinimalExecution.Extractor.PackedDirectory
import CfxMinimalExecution.Extractor.PosRewards
import CfxMinimalExecution.Extractor.RewardInjection
import CfxMinimalExecution.Extractor.RewardRead
import CfxMinimalExecution.Extractor.Roundtrip
import CfxMinimalExecution.Extractor.TableOrder
import CfxMinimalExecution.Extractor.Validate
import CfxMinimalExecution.MinimalMpt.Binding
import CfxMinimalExecution.MinimalMpt.Checkpoint
import CfxMinimalExecution.MinimalMpt.FailedCalls
import CfxMinimalExecution.MinimalMpt.FileStore
import CfxMinimalExecution.MinimalMpt.FlatMap
import CfxMinimalExecution.MinimalMpt.IncrementalRoot
import CfxMinimalExecution.MinimalMpt.KeyCache
import CfxMinimalExecution.MinimalMpt.KeyIdentity
import CfxMinimalExecution.MinimalMpt.LayeredStateRun
import CfxMinimalExecution.MinimalMpt.LmdbSnapshot
import CfxMinimalExecution.MinimalMpt.PrefixCurrent
import CfxMinimalExecution.MinimalMpt.Settled
import CfxMinimalExecution.MinimalMpt.Spec
import CfxMinimalExecution.MinimalMpt.StateInvariant
