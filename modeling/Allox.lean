import Allox.Proof.SideTableCoherence
import Allox.Proof.HoleSelection
import Allox.Proof.LargePlacement
import Allox.Proof.RetireQueue
import Allox.Proof.ExitHook
import Allox.Proof.FreeCheck
import Allox.Proof.Telemetry
import Allox.Proof.LargeSections
import Allox.Proof.CacheFlush
import Allox.System
import Allox.Proof.Purge
import Allox.Proof.Carve
import Allox.Proof.DebugFree
import Allox.Proof.Refill
import Allox.Proof.ArenaParks
import Allox.Proof.BigGrowth
import Allox.Proof.ClassTables
import Allox.Proof.Trim
import Allox.Proof.Accounting
import Allox.Proof.BinFlush
import Allox.Proof.LegacyRegistry
import Allox.Proof.BlockPlaces
import Allox.Proof.PageLists
import Allox.Proof.Locks
import Allox.Proof.ZeroedBlocks
import Allox.Proof.CFunctions
import Allox.Proof.AddressSpace
import Allox.Proof.ZeroedSpans
import Allox.Proof.ZeroedRegions
