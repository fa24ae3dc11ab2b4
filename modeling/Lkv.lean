import Lkv.Database.Concurrent
import Lkv.Database.Creating
import Lkv.Database.Damage
import Lkv.Database.FlippedLog
import Lkv.Database.Grammar
import Lkv.Database.MemoryStorage
import Lkv.Database.Readers
import Lkv.System.Backends
import Lkv.System.Counting
import Lkv.System.Indexing
import Lkv.System.Outages
import Lkv.System.Redundancy
import Lkv.Ffi.Bodies
import Lkv.Ffi.Boundary
import Lkv.Ffi.Calls
import Lkv.Ffi.ClientRuns
import Lkv.Ffi.Clients
import Lkv.Ffi.Engines
