import MeteorDB.Lib.ByteString
import MeteorDB.Lib.BlockLog
import MeteorDB.Lib.RecordLog
import MeteorDB.Lib.Decoder
import MeteorDB.Lib.OrderedList
import MeteorDB.Lib.MergeIter
import MeteorDB.Lib.CrashFs
import MeteorDB.Lib.Prog
import MeteorDB.Lib.LogFile
import MeteorDB.Error
import MeteorDB.Options
import MeteorDB.Checksum
import MeteorDB.Batch
import MeteorDB.Wal
import MeteorDB.InternalKey
import MeteorDB.Entry
import MeteorDB.Memtable
import MeteorDB.Version
import MeteorDB.Manifest
import MeteorDB.VersionSet
import MeteorDB.ManifestRecovery
import MeteorDB.Iter
import MeteorDB.LogDamage
import MeteorDB.Inspect
import MeteorDB.Compaction
import MeteorDB.Reclaim
import MeteorDB.CompactionPublish
import MeteorDB.Machine
import MeteorDB.Publication
import MeteorDB.InspectWals
import MeteorDB.Workloads.AdapterKeys
import MeteorDB.Workloads.Singleflight
import MeteorDB.TerminalFailure
import MeteorDB.Backlog
import MeteorDB.Sstable.BlockBuilder
import MeteorDB.Sstable.BlockLimit
import MeteorDB.Cache
import MeteorDB.FileNames
import MeteorDB.InspectBudget
import MeteorDB.Workloads.Embedding
import MeteorDB.Store
