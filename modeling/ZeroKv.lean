import ZeroKv.Ebr.Domain
import ZeroKv.Ebr.GracePeriod
import ZeroKv.GroupCommit.Order
import ZeroKv.GroupCommit.Wal
import ZeroKv.Lib.Chain
import ZeroKv.Lib.History
import ZeroKv.Lib.Machine
import ZeroKv.Lib.Placement
import ZeroKv.Lib.Records
import ZeroKv.Lib.Tally
import ZeroKv.Lib.Threads
import ZeroKv.Lib.Word
import ZeroKv.Mesh.Moves
import ZeroKv.Mesh.Ownership
import ZeroKv.Mesh.Put
import ZeroKv.Mesh.Quiesce
import ZeroKv.Mesh.Route
import ZeroKv.Mesh.Service
import ZeroKv.Spsc
import ZeroKv.Mesh.Linear
import ZeroKv.Mesh.Shutdown
import ZeroKv.GroupCommit.Limits
import ZeroKv.Mesh.TokenReuse
import ZeroKv.Shard
import ZeroKv.SkipList.Bottom
import ZeroKv.SkipList.Count
import ZeroKv.Store.KvStore
import ZeroKv.Store.Race
import ZeroKv.Store.Recovery
import ZeroKv.Store.Sharded
import ZeroKv.Borrow
import ZeroKv.DirectIo
import ZeroKv.Pages
import ZeroKv.Lib.Timeline
import ZeroKv.SkipList.Cleanup
import ZeroKv.SkipList.Linear
import ZeroKv.SkipList.Retire
import ZeroKv.Arena
import ZeroKv.Ebr.Custody
import ZeroKv.Ebr.Quiescent
import ZeroKv.Executor
import ZeroKv.Mesh.Finish
import ZeroKv.SkipList.Alone
import ZeroKv.SkipList.Heights
import ZeroKv.SkipList.Owners
import ZeroKv.GroupCommit.Depth
import ZeroKv.GroupCommit.Handshake
import ZeroKv.GroupCommit.Wakes
import ZeroKv.Lib.Alloc
import ZeroKv.Lib.ByteMem
import ZeroKv.Lib.Layout
import ZeroKv.Lib.Park
import ZeroKv.Parking.Completion
import ZeroKv.Regbuf.Backend
import ZeroKv.Regbuf.Pool
import ZeroKv.SkipList.Length
import ZeroKv.ZeroCopy.ArenaKv
import ZeroKv.ZeroCopy.Codec
import ZeroKv.ZeroCopy.FailedPut
import ZeroKv.Index.Linear
import ZeroKv.Index.Program
import ZeroKv.Index.Reclaim
import ZeroKv.Index.Teardown
import ZeroKv.Lib.Locality
import ZeroKv.SkipList.Lifetimes
import ZeroKv.Ebr.Relabel
import ZeroKv.Lib.Queues
import ZeroKv.Lib.Reuse
import ZeroKv.Mesh.Rings
import ZeroKv.Mesh.ServiceRings
import ZeroKv.SkipList.Tagged
import ZeroKv.Spsc.Queue
import ZeroKv.Index.Reuse
import ZeroKv.GroupCommit.Live
