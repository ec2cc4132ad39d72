import Fs3.Erasure.LatestVersion
import Fs3.Erasure.DecodeRange
import Fs3.Dsync.Exclusion
import Fs3.Namespace.Service
import Fs3.Scheduler.BackupRuns
import Fs3.Scheduler.Isolation
import Fs3.Scheduler.DealRuns
import Fs3.Erasure.DeleteMarkers
import Fs3.Scheduler.Rebuild
import Fs3.Journal.FileReaders
import Fs3.ObjectLock.LostUpdates
import Fs3.Volume.Soundness
import Fs3.Deals.KeySpace
import Fs3.ObjectReader.GetReader
import Fs3.Erasure.ParentCheck
import Fs3.Multipart.AppendedParts
import Fs3.Listing.RawMerge
import Fs3.Pools.OnePool
import Fs3.Listing.WalkFilters
import Fs3.Hash.Chain
import Fs3.Select.Limit
import Fs3.MultiDelete.AnsweredOnce
import Fs3.Tier.Pending
import Fs3.Tier.Referenced
import Fs3.Streaming.Authentic
import Fs3.Journal.NoDataSlices
import Fs3.Journal.FailedCalls
import Fs3.Journal.LatestEntry
import Fs3.Journal.InlineOps
import Fs3.Heal.AllHealState
import Fs3.Scanner.RemoteRefines
import Fs3.Cache.Coherence
import Fs3.Erasure.ShuffledDrives
import Fs3.Erasure.PartRanges
import Fs3.Erasure.BitrotRanges
import Fs3.Dsync.LockAttempt
import Fs3.Dsync.LockExpiry
import Fs3.Lifecycle.RuleOrder
import Fs3.Listing.Merged
import Fs3.Select.CsvWhole
import Fs3.Erasure.FormatQuorum
import Fs3.Listing.Resolved
import Fs3.Listing.CleanedUp
import Fs3.Pools.EvenSets
import Fs3.Listing.ObjectPages
import Fs3.Usage.ReducedTree
import Fs3.Usage.MergedTotals
import Fs3.Listing.RetriedReads
import Fs3.Listing.StreamCursor
import Fs3.Multipart.PartListings
import Fs3.Tracker.TrackerFile
import Fs3.Select.RecordTransform
import Fs3.ObjectReader.BlocksReader
import Fs3.Quota.FifoRun
import Fs3.MultiDelete.Positions
import Fs3.Storage.ReaderPool
import Fs3.Scanner.StreamSession
import Fs3.Hash.ETagText
import Fs3.Listing.TreeWalkPool
import Fs3.Policy.PostForm
import Fs3.Usage.ReplicationStats
import Fs3.Select.DateDiff
import Fs3.Usage.BandwidthThrottle
import Fs3.Policy.NotificationRules
