import CodeScout.Util.GoString
import CodeScout.Util.GoStrconv
import CodeScout.Util.GoUnicode
import CodeScout.Util.GoQuote
import CodeScout.Util.GoMap
import CodeScout.Util.Outcome
import CodeScout.Util.GoSlice
import CodeScout.Util.GoVarint
import CodeScout.Util.Interleaving
import CodeScout.Util.BitSet
import CodeScout.Util.Nearest
import CodeScout.Util.EditScript
import CodeScout.Util.GoUtf8
import CodeScout.Util.DepthFirst
import CodeScout.Util.Dominators
import CodeScout.Util.Iterates
import CodeScout.Util.GoSort
import CodeScout.Util.Stabbing
import CodeScout.Util.GoFloat
import CodeScout.Util.GoJson
import CodeScout.Util.Wildcard
import CodeScout.Util.GlobLib
import CodeScout.Util.LastMatch
import CodeScout.QueryNode
import CodeScout.QueryPlan
import CodeScout.QueryConcat
import CodeScout.ResultDiff
import CodeScout.ResultMatch
import CodeScout.ResultMerger
import CodeScout.Streaming
import CodeScout.LimitStream
import CodeScout.ExpressionJob
import CodeScout.GitLog
import CodeScout.VisibleUploads
import CodeScout.NearestUploads
import CodeScout.CommitStream
import CodeScout.Ranges
import CodeScout.LineTranslation
import CodeScout.MigrationDefinition
import CodeScout.MigrationOrder
import CodeScout.MigrationGraph
import CodeScout.MigrationDominators
import CodeScout.MigrationPlans
import CodeScout.ReconcilerPlan
import CodeScout.OobVersion
import CodeScout.OobSchedule
import CodeScout.OobUpgrade
import CodeScout.OobDowngrade
import CodeScout.RolloutWindow
import CodeScout.RolloutConfig
import CodeScout.RolloutEstimate
import CodeScout.RockskipQueue
import CodeScout.Overridable
import CodeScout.StepTemplate
import CodeScout.SubRepoPerms
import CodeScout.PerforceProtects
import CodeScout.PerforceDepots
import CodeScout.SearcherGrep
import CodeScout.SearcherSearch
import CodeScout.LsifState
import CodeScout.LsifCorrelate
import CodeScout.LsifCanonicalize
import CodeScout.LsifTotal
import CodeScout.LsifChains
import CodeScout.LsifRanges
import CodeScout.ZoektIndexed
import CodeScout.CodenavReferences
import CodeScout.Util.Machine
import CodeScout.MutableLimiter
import CodeScout.BufferedLogger
import CodeScout.StaticLimiter
import CodeScout.GitLogReverse
import CodeScout.Util.GoHeap
import CodeScout.Util.TopK
import CodeScout.SimilaritySearch
import CodeScout.UpdateQueue
import CodeScout.HorizontalSearcher
import CodeScout.PreciseHash
import CodeScout.DetachChangeset
import CodeScout.MigrationDirty
import CodeScout.Util.RegexpLiterals
import CodeScout.SearcherCompile
import CodeScout.PreciseRanges
import CodeScout.LimitedAggregator
import CodeScout.Util.Calendar
import CodeScout.SampleTimes
import CodeScout.GithubChecks
import CodeScout.ChangesetHistory
import CodeScout.ChangesetCounts
import CodeScout.RepoIterator
import CodeScout.Util.SwapSort
import CodeScout.RepoRevs
import CodeScout.SearchRepos
import CodeScout.BatchingStream
import CodeScout.ResultQueueAccounts
import CodeScout.CommitDiffFilter
import CodeScout.SmartSearch
import CodeScout.SearcherChunks
import CodeScout.Highlights
import CodeScout.FifoList
import CodeScout.StencilRanges
import CodeScout.ConnectionResolver
import CodeScout.EmbeddableChunks
