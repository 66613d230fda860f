import Libchef.Base.Alloc
import Libchef.Base.Blocks
import Libchef.Base.Chain
import Libchef.Base.Circle
import Libchef.Base.Cups
import Libchef.Base.Decimal
import Libchef.Base.Disk
import Libchef.Base.Files
import Libchef.Base.Istream
import Libchef.Base.Legible
import Libchef.Base.Lines
import Libchef.Base.Multimap
import Libchef.Base.Numeral
import Libchef.Base.Ordered
import Libchef.Base.Recency
import Libchef.Base.RecordLock
import Libchef.Base.Runs
import Libchef.Base.Slots
import Libchef.Base.SmoothRobin
import Libchef.Base.Sync
import Libchef.Base.Text
import Libchef.Base.Tree
import Libchef.Base.Turns
import Libchef.Base.Words
import Libchef.Base64Codes
import Libchef.Base64Model
import Libchef.Base64Standard
import Libchef.BufferFifo
import Libchef.BufferGrowth
import Libchef.BufferMemory
import Libchef.BufferModel
import Libchef.BufferRun
import Libchef.CounterModel
import Libchef.CounterStuck
import Libchef.CounterWake
import Libchef.DaemonModel
import Libchef.DaemonSingle
import Libchef.DebugConfigModel
import Libchef.DebugConfigPublish
import Libchef.DebugMutexAlarm
import Libchef.DebugMutexModel
import Libchef.DumpAtomic
import Libchef.DumpModel
import Libchef.ExecLines
import Libchef.ExecModel
import Libchef.FilelockExclusive
import Libchef.FilelockModel
import Libchef.FilepathJoin
import Libchef.FilepathLinks
import Libchef.FilepathMkdir
import Libchef.FilepathModel
import Libchef.FilepathTree
import Libchef.FmtModel
import Libchef.FmtPlaces
import Libchef.GroupBalance
import Libchef.GroupCallsModel
import Libchef.GroupCounts
import Libchef.GroupModel
import Libchef.GroupOnce
import Libchef.GroupSteps
import Libchef.HexDump
import Libchef.HexModel
import Libchef.HmacModel
import Libchef.HmacRun
import Libchef.HmacStandard
import Libchef.HttpCookies
import Libchef.HttpModel
import Libchef.LruModel
import Libchef.LruRecency
import Libchef.Md5Block
import Libchef.Md5Model
import Libchef.Md5Run
import Libchef.Md5Standard
import Libchef.NetdevModel
import Libchef.NetdevRow
import Libchef.OnceModel
import Libchef.OnceRuns
import Libchef.PoolExit
import Libchef.PoolModel
import Libchef.PoolTasks
import Libchef.ProcColumns
import Libchef.ProcModel
import Libchef.RingModel
import Libchef.RingOwner
import Libchef.RingPlaces
import Libchef.Sha1Block
import Libchef.Sha1Model
import Libchef.Sha1Run
import Libchef.Sha1Standard
import Libchef.Sha256Block
import Libchef.Sha256Digest
import Libchef.Sha256Model
import Libchef.Sha256Run
import Libchef.Sha256Standard
import Libchef.SkipAssign
import Libchef.SkipCopy
import Libchef.SkipCopyLevels
import Libchef.SkipErase
import Libchef.SkipFind
import Libchef.SkipHint
import Libchef.SkipInsert
import Libchef.SkipInvariant
import Libchef.SkipLoose
import Libchef.SkipModel
import Libchef.SkipPlain
import Libchef.SkipQuery
import Libchef.SkipRange
import Libchef.SkipRefine
import Libchef.SkipRep
import Libchef.SkipResume
import Libchef.SkipReverse
import Libchef.SkipStore
import Libchef.SkipWholeModel
import Libchef.StringifyModel
import Libchef.StringifyReads
import Libchef.StringsAgree
import Libchef.StringsContains
import Libchef.StringsCut
import Libchef.StringsDecode
import Libchef.StringsFilter
import Libchef.StringsLines
import Libchef.StringsModel
import Libchef.StringsReplace
import Libchef.StringsSplit
import Libchef.StringsTrim
import Libchef.StringsUrl
import Libchef.StringsWrap
import Libchef.TagCountModel
import Libchef.TagCountModes
import Libchef.TaskCount
import Libchef.TaskDue
import Libchef.TaskFinal
import Libchef.TaskModel
import Libchef.TaskOnce
import Libchef.TaskShutdown
import Libchef.TaskSteps
import Libchef.TaskStop
import Libchef.UrlModel
import Libchef.UrlParse
import Libchef.UrlShape
import Libchef.WeightFair
import Libchef.WeightModel
import Libchef.WeightScan
import Libchef.WeightTotal
import Libchef.WireFields
import Libchef.WireModel
