import Weibo.Spec.ExactlyOnce
import Weibo.Spec.CrashSafety
import Weibo.Spec.AlignedOffsets
import Weibo.Spec.StatelessProgram
import Weibo.Spec.SnapshotAssembly
import Weibo.Spec.Startup
import Weibo.Spec.ResumePosition
import Weibo.Spec.ListRecovery
import Weibo.Spec.CancelFinal
import Weibo.Spec.GracefulStop
import Weibo.Spec.SessionForm
import Weibo.Spec.MergedEviction
import Weibo.Spec.StoreAgreement
import Weibo.Spec.WindowAggregate
import Weibo.Spec.ValueRefinement
import Weibo.Spec.TxnIntegrity
import Weibo.Spec.StoppedRuns
import Weibo.Spec.LatestRun
import Weibo.Spec.Reassignment
import Weibo.Spec.ArchiveRoundTrip
import Weibo.Spec.SavepointRequests
import Weibo.Spec.CoordinatorProgress
import Weibo.Spec.BatchConservation
import Weibo.Spec.PostgresBinding
import Weibo.Spec.FieldPaths
import Weibo.Spec.RecordDecoding
import Weibo.Spec.WorkflowValidity
import Weibo.Spec.FilterComparison
import Weibo.Spec.RecordIsolation
import Weibo.Spec.RetryDelays
import Weibo.Spec.SecretResolution
