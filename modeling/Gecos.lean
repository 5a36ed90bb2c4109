import Gecos.Versioned.Linearizable
import Gecos.Versioned.SgecosLinearizable
import Gecos.Allocation.Allocator
import Gecos.Allocation.Conservation
import Gecos.Hazard.Retirement
import Gecos.Hazard.Accounts
import Gecos.Hazard.Search
import Gecos.Hazard.Protection
import Gecos.Table.Sequential
import Gecos.Hazard.Composed
import Gecos.Allocation.Threads
import Gecos.Library.Ledger
import Gecos.Refcount.Search
import Gecos.Refcount.Accounts
import Gecos.Refcount.Invariant
import Gecos.Refcount.Updater
import Gecos.Refcount.Safety
import Gecos.Library.Trail
import Gecos.Refcount.Linearizable
import Gecos.Rcu.GracePeriod
import Gecos.Rcu.Linearizable
import Gecos.Lock.Invariant
import Gecos.Lock.Gclock
import Gecos.Lock.Seqlock
import Gecos.Mrow.Config
import Gecos.Table.Calls
import Gecos.Mrow.Hash
import Gecos.Mrow.Bounds
import Gecos.Mrow.OneWriter
import Gecos.Allocation.Roles
import Gecos.Hazard.Barriers
import Gecos.Mrow.Test
import Gecos.Hazard.Compare
import Gecos.Library.LockFree
import Gecos.Versioned.LockFree
import Gecos.Versioned.Ccrt
import Gecos.Rcu.Backlog
import Gecos.Versioned.OsaBest
import Gecos.Library.Rounding
import Gecos.Mrow.Accounting
import Gecos.Library.Cascade
import Gecos.Refcount.Release
import Gecos.Mrow.Teardown
import Gecos.Library.Linearizability
import Gecos.Table.Object
import Gecos.Versioned.Object
import Gecos.Versioned.SgecosObject
import Gecos.Lock.Object
import Gecos.Rcu.Object
import Gecos.Refcount.Object
import Gecos.Allocation.Builds
import Gecos.Lock.BlockingDrain
import Gecos.Rcu.Managed
import Gecos.Library.Tally
import Gecos.Rcu.WaitFree
import Gecos.Table.Balance
import Gecos.Lock.Progress
import Gecos.Refcount.Drain
import Gecos.Allocation.Progress
import Gecos.Hazard.Progress
import Gecos.Versioned.RelinkProgress
import Gecos.Versioned.BackSearch
