import HmmOS.Common.Console
import HmmOS.Boot.BootRegions
import HmmOS.Boot.PageTables
import HmmOS.Boot.ReadConfined
import HmmOS.Boot.StartClusters
import HmmOS.Mm.Bookkeeping
import HmmOS.Mm.PageBlocks
import HmmOS.Mm.RegionOverlap
import HmmOS.Nonstd.DequeLeaks
import HmmOS.Nonstd.ListSelfSplice
import HmmOS.Nonstd.NodeHashMapRefinement
import HmmOS.Nonstd.PrintfSpecs
import HmmOS.Nonstd.StorageLeaks
import HmmOS.Nonstd.StringContents
import HmmOS.Nonstd.StringKeys
import HmmOS.Nonstd.Strncpy
import HmmOS.Util.LruLease
import HmmOS.Drivers.AhciMemory
import HmmOS.Drivers.AhciRead
import HmmOS.Fs.DevOffset
import HmmOS.Fs.Names83
import HmmOS.Fs.PageRequests
import HmmOS.Arch.PrivateMappings
import HmmOS.Sched.SwitchCount
import HmmOS.Sched.ThreadIds
import HmmOS.Proc.Creat
import HmmOS.Proc.ElfConfined
import HmmOS.Proc.ElfTiling
import HmmOS.Proc.MmapWrap
import HmmOS.Proc.ProcessLeak
import HmmOS.Proc.SeekRead
import HmmOS.Userspace.Josh
import HmmOS.Mm.Virt
