import LowLatency.Basic
import LowLatency.Lib.Runs
import LowLatency.Lib.Fairness
import LowLatency.Disruptor.Components
import LowLatency.Disruptor.Protocol
import LowLatency.Disruptor.Accounting
import LowLatency.Disruptor.MultiProducer
import LowLatency.Disruptor.Publication
import LowLatency.Disruptor.Ring
import LowLatency.Disruptor.Shutdown
import LowLatency.Disruptor.Halting
import LowLatency.Disruptor.Delivery
import LowLatency.Disruptor.Reuse
import LowLatency.Dictionary.OpenAddressing
import LowLatency.LockFree.SpinLock
import LowLatency.LockFree.Overtaking
import LowLatency.Dictionary.V0
import LowLatency.Dictionary.V1
import LowLatency.Dictionary.V2
import LowLatency.Dictionary.V3
import LowLatency.Dictionary.V4
import LowLatency.Dictionary.Insertion
import LowLatency.Lib.CyclicWindow
import LowLatency.NaiveQueue.Queue
import LowLatency.Lib.Words
import LowLatency.NaiveQueue.Spsc
import LowLatency.NaiveQueue.Completion
import LowLatency.Spellchecker.Tokenizer
import LowLatency.Spellchecker.Files
import LowLatency.Spellchecker.Report
import LowLatency.LockFree.Counter
import LowLatency.LockFree.Termination
import LowLatency.CacheLine.Sharing
import LowLatency.Simd.AddArrays
import LowLatency.Lib.Loops
import LowLatency.LoopUnrolling.Sum
import LowLatency.LoopUnrolling.Fission
import LowLatency.Prefetching.LinkedList
import LowLatency.Simd.Unrolled
import LowLatency.TypeSize.AverageAge
import LowLatency.Lib.Bits
import LowLatency.Lib.QuadraticProbing
import LowLatency.RawHashSet.Group
import LowLatency.RawHashSet.GroupPortable
import LowLatency.RawHashSet.Capacity
import LowLatency.RawHashSet.Table
import LowLatency.RawHashSet.Lookup
import LowLatency.RawHashSet.Placement
import LowLatency.RawHashSet.Resize
import LowLatency.RawHashSet.DropDeletes
import LowLatency.RawHashSet.Insertion
import LowLatency.RawHashSet.Erase
import LowLatency.RawHashSet.Clear
import LowLatency.RawHashSet.Iteration
import LowLatency.RawHashSet.Refinement
import LowLatency.RawHashSet.Occupancy
import LowLatency.RawHashSet.EraseIf
import LowLatency.Dictionary.V5
import LowLatency.Dictionary.Benchmark
