import SyscallMind.Anomaly.Detection
import SyscallMind.Anomaly.DivergenceBounds
import SyscallMind.Anomaly.FloatDetector
import SyscallMind.Anomaly.InterCallDelay
import SyscallMind.Anomaly.OutlierWindow
import SyscallMind.Anomaly.ProgramIsolation
import SyscallMind.Anomaly.RiskFormula
import SyscallMind.Bin.ReplayHarness
import SyscallMind.Bin.ReplayOutput
import SyscallMind.Bin.ReplaySources
import SyscallMind.Bin.Runtime
import SyscallMind.Bin.WorkloadGenerator
import SyscallMind.Bin.WorkloadTimeline
import SyscallMind.Lib.Attention
import SyscallMind.Lib.Entropy
import SyscallMind.Lib.FloatNat
import SyscallMind.Lib.JsonScan
import SyscallMind.Lib.LruOrder
import SyscallMind.Lib.MeanAggregation
import SyscallMind.Lib.OrderedPairs
import SyscallMind.Lib.Paging
import SyscallMind.Ml.AnomalyScorer
import SyscallMind.Ml.Dataset
import SyscallMind.Ml.FeatureMatrix
import SyscallMind.Ml.FeatureVectors
import SyscallMind.Ml.GraphModel
import SyscallMind.Ml.LoadTraces
import SyscallMind.Ml.Predictions
import SyscallMind.Ml.Predictor
import SyscallMind.Ml.Transformer
import SyscallMind.Ml.WorkloadTraining
import SyscallMind.Optimizer.BatchDependency
import SyscallMind.Optimizer.BatchMinimal
import SyscallMind.Optimizer.CacheCoherence
import SyscallMind.Optimizer.CacheGate
import SyscallMind.Optimizer.CacheHistory
import SyscallMind.Optimizer.CacheInclusion
import SyscallMind.Optimizer.CachePaging
import SyscallMind.Optimizer.CacheStaleness
import SyscallMind.Optimizer.CallKeys
import SyscallMind.Optimizer.DedupHistory
import SyscallMind.Optimizer.PrefetchConcurrency
import SyscallMind.Optimizer.PrefetchStats
import SyscallMind.Pipeline.RingBufferLen
import SyscallMind.Pipeline.RingBufferRefinement
import SyscallMind.Pipeline.TornTrace
import SyscallMind.Pipeline.TraceFile
import SyscallMind.Pipeline.WindowSpan
import SyscallMind.Runtime.HandlerConcurrency
import SyscallMind.Safety.DependencyPairs
import SyscallMind.Safety.Reorder
