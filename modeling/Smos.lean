import Smos.Fxfs.AllocatorTree
import Smos.Fxfs.ObjectRange
import Smos.Virtio.QueueRun
import Smos.Virtio.Stream
import Smos.Bind.DependencyOrder
import Smos.Inspect.SnapshotRun
import Smos.Bind.MatchCorrect
import Smos.Fxfs.LockManagerSystem
import Smos.Qcow.Translate
import Smos.Vsock.ConnectionRun
import Smos.Component.ShutdownOrder
import Smos.Component.ActionSetRun
import Smos.Block.CopyOnWriteRun
import Smos.Log.RoundTrip
import Smos.RegionAlloc.Search
import Smos.Graph.TarjanRun
import Smos.Archivist.Guarantees
import Smos.Fxfs.ChecksumReplay
import Smos.Affine.Product
import Smos.Affine.Scale
import Smos.Async.OwnershipRun
import Smos.Async.Scope
import Smos.Async.Timer
import Smos.Bitmap.RleCalls
import Smos.Socket.Delivery
import Smos.Fxfs.BloomFilter
import Smos.Fxfs.DoubleFree
import Smos.Inspect.HeapDoubleFree
