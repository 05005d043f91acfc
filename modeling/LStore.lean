import LStore.Toolbox.StringToken
import LStore.Log.Concurrent
import LStore.Log.Merge
import LStore.Jerasure.RoundTrip
import LStore.Jerasure.ScanRuns
import LStore.Lun.Clone
import LStore.Toolbox.IntervalOrdered
import LStore.Segment.FileCopySpec
import LStore.Gop.SubmitWaitany
import LStore.Rs.QuerySpec
import LStore.Cache.DirectIoFlat
import LStore.Cache.DirectRanges
import LStore.Cache.PageBatches
import LStore.Os.ObjectLockRuns
import LStore.Ibp.ConfinedCopy
import LStore.Os.MoveAtomic
import LStore.Os.MutexOrder
import LStore.Lio.WorkQueueExact
import LStore.Osd.CorruptionRuns
import LStore.Log.Override
import LStore.Log.Changes
import LStore.Lun.Placement
import LStore.Lun.TableBounds
import LStore.Linear.Truncate
import LStore.Linear.ReadStatus
import LStore.Ibp.Subnet
import LStore.Ibp.Grow
import LStore.Lun.Sizes
import LStore.Lun.Migrate
import LStore.Toolbox.Varint
import LStore.Gop.Portal
