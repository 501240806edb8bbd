import EideticEngine.BoundedLoop
import EideticEngine.ExceptRules
import EideticEngine.LittleEndian
import EideticEngine.MachineInt
import EideticEngine.SwapRemove
import EideticEngine.ScanBest
import EideticEngine.RustText
import EideticEngine.TypedId
import EideticEngine.F32
import EideticEngine.ContiguousCursor
import EideticEngine.OrderedMap
import EideticEngine.PackTypes
import EideticEngine.PackQuota
import EideticEngine.PackLod
import EideticEngine.PackSignature
import EideticEngine.PackLedger
import EideticEngine.PackMmr
import EideticEngine.PackFacility
import EideticEngine.PackWorkspace
import EideticEngine.PackAssembly
import EideticEngine.PackGuard
import EideticEngine.PackNative
import EideticEngine.PackRanks
import EideticEngine.AntiEntropyModel
import EideticEngine.AntiEntropyReplay
import EideticEngine.AntiEntropyFrontier
import EideticEngine.AntiEntropyReads
import EideticEngine.AntiEntropyPlanner
import EideticEngine.TextFields
import EideticEngine.AntiEntropyDigest
import EideticEngine.Serde
import EideticEngine.OriginStream
import EideticEngine.OriginWriters
import EideticEngine.MeshSync
import EideticEngine.MeshSyncConvergence
import EideticEngine.LengthPrefixed
import EideticEngine.MutableResult
import EideticEngine.Hex
import EideticEngine.TransportSession
import EideticEngine.TransportNetwork
import EideticEngine.TransportHandshake
import EideticEngine.GroupCommit
import EideticEngine.WriteSpool
import EideticEngine.JobJournal
import EideticEngine.MeshAdmission
import EideticEngine.ResponderBroker
import EideticEngine.ReadPool
import EideticEngine.Base64
import EideticEngine.LaneGrant
import EideticEngine.OriginIngest
import EideticEngine.ContradictionGuard
import EideticEngine.HashChain
import EideticEngine.JsonText
import EideticEngine.AuditLog
import EideticEngine.AuditWriters
import EideticEngine.AuditLane
import EideticEngine.AdvisoryLock
import EideticEngine.LeaseWorld
import EideticEngine.PackAdmission
import EideticEngine.ComparisonSort
import EideticEngine.PackOrder
import EideticEngine.OriginForks
import EideticEngine.OriginAcceptance
import EideticEngine.SessionChannel
import EideticEngine.SessionRuns
import EideticEngine.SessionAnswers
import EideticEngine.PackBudget
import EideticEngine.PackPreview
import EideticEngine.PackDisplacement
import EideticEngine.UlidSort
import EideticEngine.TypedIdText
import EideticEngine.Provenance
import EideticEngine.S3Fifo
import EideticEngine.BloomPrefilter
import EideticEngine.Utf8Slice
import EideticEngine.AskSegments
import EideticEngine.LeastForest
import EideticEngine.AskText
import EideticEngine.AskNative
import EideticEngine.AskClustering
import EideticEngine.AskSupport
import EideticEngine.AskCandidates
import EideticEngine.AskReport
import EideticEngine.PrefixBudget
import EideticEngine.DetailBudget
import EideticEngine.LatestEntries
import EideticEngine.JournalIndex
import EideticEngine.JournalLevels
import EideticEngine.JournalLines
import EideticEngine.OrphanRecovery
import EideticEngine.ShortIo
import EideticEngine.FrameIo
import EideticEngine.PlanCache
import EideticEngine.SpoolBatches
import EideticEngine.PrefixCode
import EideticEngine.PlanTreeCode
import EideticEngine.JsonIdentity
import EideticEngine.GraphCacheKeys
import EideticEngine.BinaryLifting
import EideticEngine.RootedForest
import EideticEngine.GomoryHu
import EideticEngine.BoundedInsert
import EideticEngine.CausalWalk
import EideticEngine.TopSelection
import EideticEngine.MinHashRank
import EideticEngine.SearchQuery
import EideticEngine.CursorScan
import EideticEngine.EngineQuery
import EideticEngine.EngineFlags
import EideticEngine.Utf8Blanks
import EideticEngine.AskCoverage
import EideticEngine.AskAllPairs
import EideticEngine.AskLineage
import EideticEngine.AskSlots
import EideticEngine.AskOpposition
import EideticEngine.AskLiterals
import EideticEngine.AskOrderingCycles
import EideticEngine.LeastRemoval
import EideticEngine.MeshCache
import EideticEngine.MeshRetention
import EideticEngine.KeyedLocks
import EideticEngine.GraphResultCache
import EideticEngine.BypassTokens
import EideticEngine.BypassTokenRuns
import EideticEngine.BypassRateLimit
import EideticEngine.FixedWindows
import EideticEngine.BootstrapAdmission
import EideticEngine.KeysetPages
import EideticEngine.MemoryTemporal
import EideticEngine.EndMarkers
import EideticEngine.KahnLayers
import EideticEngine.RepairActionGraph
import EideticEngine.RepairLayers
import EideticEngine.RepairBuild
import EideticEngine.MinBy
import EideticEngine.CuckooTable
import EideticEngine.PprPrefetchCache
import EideticEngine.PrefetchCacheRuns
import EideticEngine.PrefetchCacheRecency
import EideticEngine.SpanClusters
import EideticEngine.JsonRedaction
import EideticEngine.JsonRedactionText
import EideticEngine.StarPatterns
import EideticEngine.RecallGlob
import EideticEngine.PackMmrSimilarity
import EideticEngine.LabelledSections
import EideticEngine.RecallCursor
import EideticEngine.DaemonExecution
import EideticEngine.DaemonExecutionRuns
