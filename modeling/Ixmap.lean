import Ixmap.Memory
import Ixmap.CircularIndex
import Ixmap.Driver
import Ixmap.DriverOwnership
import Ixmap.DriverRun
import Ixmap.BlockHeap
import Ixmap.Lpm
import Ixmap.StableOrder
import Ixmap.Fib
import Ixmap.FibTrie
import Ixmap.FibTrieAdd
import Ixmap.FibTrieDelete
import Ixmap.FibBlocks
import Ixmap.FibUpdate
import Ixmap.FibRun
import Ixmap.FibRefine
import Ixmap.FibExhaustion
import Ixmap.Hash
import Ixmap.Neigh
import Ixmap.Netlink
import Ixmap.RouteSync
import Ixmap.NeighSync
import Ixmap.Forward
import Ixmap.Router
import Ixmap.ThreadOwnership
import Ixmap.IpHeader
import Ixmap.MemoryCoalesce
import Ixmap.DmaArea
import Ixmap.Adapter
import Ixmap.AdapterIrq
import Ixmap.AdapterRun
import Ixmap.AdapterWindow
import Ixmap.AdapterSession
import Ixmap.ThreadStarvation
import Ixmap.NextHop
import Ixmap.Rib
import Ixmap.RibCascade
import Ixmap.RibCheck
import Ixmap.Bgp
import Ixmap.MemoryFailure
import Ixmap.MemoryShape
import Ixmap.Construct
import Ixmap.BufAlloc
import Ixmap.FibInverse
import Ixmap.MemoryAlign
import Ixmap.RxInit
import Ixmap.HList
import Ixmap.HashLinks
import Ixmap.NeighRefine
import Ixmap.NetlinkBuffer
import Ixmap.RouteReads
import Ixmap.NetlinkBounds
import Ixmap.NetlinkCodec
import Ixmap.DevList
import Ixmap.Plane
import Ixmap.Unwind
import Ixmap.Ivar
import Ixmap.LpmBounds
import Ixmap.RouteOrder
import Ixmap.RibTermination
import Ixmap.ThreadSetup
import Ixmap.RegProgram
import Ixmap.SwfwSync
import Ixmap.SyncExclusion
import Ixmap.Eeprom
import Ixmap.EepromRead
import Ixmap.HwState
import Ixmap.MacCommon
import Ixmap.EepromImage
import Ixmap.HostInterface
import Ixmap.Mac82599
import Ixmap.PortOps
import Ixmap.SyncSystem
import Ixmap.SfpInit
import Ixmap.PortInit
import Ixmap.PortOrder
import Ixmap.PortBringUp
