import ImmutableCache.Sma.BestFit
import ImmutableCache.Sma.Init
import ImmutableCache.Sma.Avail
import ImmutableCache.Persist.Entry
import ImmutableCache.Persist.Position
import ImmutableCache.Cache.Table
import ImmutableCache.Cache.Memory
import ImmutableCache.Cache.Entries
import ImmutableCache.Cache.Info
import ImmutableCache.Cache.Lookup
import ImmutableCache.Cache.Store
import ImmutableCache.Iterator.Fetch
import ImmutableCache.Cache.Add
import ImmutableCache.Cache.Batch
import ImmutableCache.Cache.Callbacks
import ImmutableCache.Cache.Create
import ImmutableCache.Cache.Registry
import ImmutableCache.Cache.Reuse
import ImmutableCache.Cache.Reach
import ImmutableCache.Cache.Reclaim
import ImmutableCache.Cache.Refinement
import ImmutableCache.Cache.RoundTrip
import ImmutableCache.Cache.Serialize
import ImmutableCache.Cache.Startup
import ImmutableCache.Cache.Statistics
import ImmutableCache.Iterator.Buffer
import ImmutableCache.Iterator.Calls
import ImmutableCache.Iterator.Loop
import ImmutableCache.Iterator.Overflow
import ImmutableCache.Cache.Deadlock
import ImmutableCache.Cache.Protect
import ImmutableCache.Cache.Counting
import ImmutableCache.Cache.Accounts
import ImmutableCache.Cache.SpinLock
import ImmutableCache.Cache.Completion
import ImmutableCache.Cache.Preload
import ImmutableCache.Cache.Report
import ImmutableCache.Iterator.Keys
import ImmutableCache.Cache.Reading
import ImmutableCache.Iterator.Reading
