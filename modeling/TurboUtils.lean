import TurboUtils.Chttp.Hpack.Synchrony
import TurboUtils.Chttp.Hpack.Reference
import TurboUtils.Chttp.Hpack.Integer
import TurboUtils.Chttp.Hpack.StringLiterals
import TurboUtils.Chttp.H2.Segmentation
import TurboUtils.Chttp.H2.SendCredit
import TurboUtils.Cstl.Btree.Refinement
import TurboUtils.Cstl.Hash.Refinement
import TurboUtils.Concurrency.Spsc.Fifo
import TurboUtils.Concurrency.Disruptor.WorkerPool
import TurboUtils.Concurrency.Disruptor.Broadcast
import TurboUtils.Concurrency.Disruptor.Gating
import TurboUtils.Concurrency.ThreadPool.Conservation
import TurboUtils.Concurrency.Disruptor.Dependencies
import TurboUtils.Cstl.Rbtree.Refinement
import TurboUtils.Cflow.Machine.Flattening
import TurboUtils.Cflow.Machine.Acceptance
import TurboUtils.Cflow.Instance.Causes
import TurboUtils.Cflow.Instance.ScopedTimers
import TurboUtils.Cflow.Timer.Settlement
import TurboUtils.Dsv.Preservation
import TurboUtils.Dsv.IndexedRows
import TurboUtils.Csv.Serialize
import TurboUtils.Csv.Thread
import TurboUtils.Dsv.DirectScan
import TurboUtils.Cflow.Graph.Topology
import TurboUtils.Cflow.Plan.Agreement
import TurboUtils.Lib.PartialReduce
import TurboUtils.Cstl.Interchange
import TurboUtils.Json.ObjectMap
import TurboUtils.Json.Traversal
import TurboUtils.Tlv.Stream
import TurboUtils.JsonPath.Compiled
import TurboUtils.Cstl.Heap
import TurboUtils.Concurrency.Deadline.Settlement
import TurboUtils.Cstl.Deque
import TurboUtils.Cstl.Sort
import TurboUtils.Cflow.Mailbox.Laws
import TurboUtils.Chttp.Hpack.ListLimit
import TurboUtils.Chttp.H2.HeaderBounds
import TurboUtils.Chttp.H2.SubmitAtomic
import TurboUtils.Chttp.H2.StreamIdentity
import TurboUtils.Ltv.Stream
import TurboUtils.Modbus.Stream
import TurboUtils.Utils.SlotAccounting
import TurboUtils.Utils.Levenshtein
import TurboUtils.Utils.AcFailure
import TurboUtils.Utils.BucketOrder
