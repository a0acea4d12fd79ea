import Lci.Machine
import Lci.MatchingSpec
import Lci.MatchingMapQueue
import Lci.MatchingMap
import Lci.MatchingMapRefinement
import Lci.MatchingQueue
import Lci.Bits
import Lci.ImmData
import Lci.Backlog
import Lci.RegCache
import Lci.Rendezvous
import Lci.ShmRing
import Lci.ShmRingInv
import Lci.ShmRingDelivery
import Lci.Graph
import Lci.GraphInv
import Lci.GraphRun
import Lci.BinomialTree
import Lci.Collective
import Lci.RingWindow
import Lci.MpmcSet
import Lci.BacklogRun
import Lci.ImmTagArchive
import Lci.Barrier
import Lci.BarrierRun
import Lci.WriteLog
import Lci.PmiTcp
import Lci.PmiTcpRun
import Lci.ArrayQueue
import Lci.PostRecv
import Lci.SendSlots
import Lci.BroadcastRing
import Lci.Reduce
import Lci.DirectGraph
import Lci.EagerPacket
import Lci.LocalSetDeque
import Lci.ShmRingLimit
import Lci.ShmGeometry
import Lci.PosixRingName
import Lci.Sync
import Lci.Qp2Rank
import Lci.Codec
import Lci.PmiWire
import Lci.PmiHex
import Lci.Assoc
import Lci.PmiTcpWire
