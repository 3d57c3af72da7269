import HCache.RustKeyKinds
import HCache.RustDiskRecovery
import HCache.CppShardedStorage
import HCache.RustBulkLoad
import HCache.RustClusterHistories
import HCache.RustPeerUpdates
import HCache.RustLoaderRestarts
import HCache.RustZSetRaces
import HCache.RustPeerInstalls
import HCache.RustMultiKeyOutcomes
import HCache.CppStorageReaders
import HCache.CppShardedBatches
import HCache.RustKvRaces
import HCache.RustInitLoading
import HCache.RustZSetSnapshots
import HCache.CppFstackRequests
import HCache.CppZsetIndexes
import HCache.RustZSetRecords
import HCache.RustListAnswers
import HCache.CppScoreWidths
import HCache.CppPathSplits
import HCache.RustHttpParser
import HCache.RustHandlerPanics
import HCache.RustPathKeys
import HCache.CppPicoVerdicts
import HCache.CppHttpApi
import HCache.CppServerAnswers
import HCache.CppFstackConnections
import HCache.RustCppAgreement
import HCache.RustClusterAnswers
import HCache.RustCrashRecovery
