import WormDB.MmrChecked
import WormDB.MmrAppendFailure
import WormDB.WalCorruption
import WormDB.FailedSet
import WormDB.FrozenWorm
import WormDB.AppendTotal
import WormDB.TrustRules
import WormDB.TrustSigning
import WormDB.CoordinationRules
import WormDB.CoordinationLease
import WormDB.CoordinationExpiry
import WormDB.CoordinationEpoch
import WormDB.LogOrder
import WormDB.DynamicTrustRuns
import WormDB.AsyncStart
import WormDB.BulkRefusal
import WormDB.ProofBundleCanonical
import WormDB.AntiEntropy
import WormDB.HnswSnapshotRuns
import WormDB.TimedOutReplies
import WormDB.Increment
import WormDB.KvPut
import WormDB.FrameReplay
import WormDB.MemDrop
import WormDB.WalFencing
import WormDB.HlcThreads
import WormDB.GatewayFrame
import WormDB.GatewayResponses
import WormDB.WireOwnership
import WormDB.MetaFieldExact
import WormDB.EventTimestamp
import WormDB.AuthToken
import WormDB.GatewayStream
import WormDB.FrozenFiles
import WormDB.ScatterMerge
import WormDB.MemQuery
import WormDB.IndexAtomicity
import WormDB.TopK
import WormDB.CtxLocks
import WormDB.BunWrites
import WormDB.BunDispatch
import WormDB.BunEvents
