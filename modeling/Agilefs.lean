import Agilefs.Runs
import Agilefs.ByteFile
import Agilefs.Posix
import Agilefs.FreeList
import Agilefs.FreeListFile
import Agilefs.ChunkStore
import Agilefs.Allocator
import Agilefs.StoreInvariant
import Agilefs.NoAliasing
import Agilefs.RefCount
import Agilefs.Ingest
import Agilefs.Restart
import Agilefs.BufferQueue
import Agilefs.Server
import Agilefs.ConcurrentPut
import Agilefs.Loop
import Agilefs.Fuse
import Agilefs.FuseLoops
import Agilefs.Metafile
import Agilefs.FileSize
import Agilefs.References
import Agilefs.Ledger
import Agilefs.LedgerRuns
import Agilefs.FuseCache
import Agilefs.FuseRead
import Agilefs.ChunkChoice
import Agilefs.StoreSteps
import Agilefs.FailedPut
import Agilefs.SlotLimits
import Agilefs.StoreCalls
import Agilefs.Truncation
import Agilefs.WriteFrame
import Agilefs.ReadBytes
import Agilefs.Unlink
import Agilefs.RefCounted
import Agilefs.WriteJob
import Agilefs.WriteRun
import Agilefs.WriteKeeps
import Agilefs.FailedWrite
import Agilefs.LastingWrite
import Agilefs.LastingRead
import Agilefs.Holes
import Agilefs.LeastLoaded
import Agilefs.Balance
import Agilefs.FreeListLoad
import Agilefs.FreeListStack
import Agilefs.Sharding
import Agilefs.Producer
import Agilefs.ConfigLoad
import Agilefs.Sockio
import Agilefs.DirectIo
import Agilefs.CacheHits
import Agilefs.CString
import Agilefs.Md5Path
import Agilefs.BlockFile
import Agilefs.TcpConnect
import Agilefs.MetafileLocks
import Agilefs.CacheLives
import Agilefs.FailedPush
import Agilefs.ZeroKey
import Agilefs.BlockHash
import Agilefs.Md5Scheme
import Agilefs.Md5
import Agilefs.Pipeline
import Agilefs.Durable
import Agilefs.FileSys
import Agilefs.FileBytes
import Agilefs.Mirror
import Agilefs.ClientFiles
import Agilefs.StoreFiles
import Agilefs.ServerLives
import Agilefs.Space
import Agilefs.LostWrite
