import ShmemUtils.Library.SortedList
import ShmemUtils.Allocator.HeapRuns
import ShmemUtils.Allocator.UsableSize
import ShmemUtils.Library.Outline
import ShmemUtils.Channel.Teardown
import ShmemUtils.Channel.Readiness
import ShmemUtils.Channel.Capacity
import ShmemUtils.Channel.Receives
import ShmemUtils.Channel.Fifo
import ShmemUtils.Channel.WakeUps
import ShmemUtils.Channel.Ownership
import ShmemUtils.Channel.PeerCounts
import ShmemUtils.Channel.Exclusivity
import ShmemUtils.Time.TimedLock
import ShmemUtils.Time.TimedWait
import ShmemUtils.Allocator.BestFit
import ShmemUtils.Allocator.Bounds
import ShmemUtils.Allocator.Contents
import ShmemUtils.Channel.SingleWakeUps
import ShmemUtils.Channel.New
import ShmemUtils.Channel.Release
import ShmemUtils.Channel.Lifecycle
import ShmemUtils.Time.ReleaseClock
import ShmemUtils.Allocator.Mappings
import ShmemUtils.Channel.Truthful
import ShmemUtils.Channel.CheckedSub
import ShmemUtils.Channel.SendPaths
import ShmemUtils.Channel.ForkedDestroy
import ShmemUtils.Channel.CounterCalls
import ShmemUtils.Channel.Rest
import ShmemUtils.Allocator.Concurrent
import ShmemUtils.Allocator.SelfCheck
import ShmemUtils.Channel.SharedMemory
import ShmemUtils.Channel.SoleReceiver
import ShmemUtils.Sync.Broadcasts
