import Gem5.TransitionSystem
import Gem5.MsiTables
import Gem5.Directory
import Gem5.L1Controller
import Gem5.SnoopBus
import Gem5.MsiL1
import Gem5.MsiDir
import Gem5.Counting
import Gem5.MsiSteps
import Gem5.MsiAccounting
import Gem5.Machine
import Gem5.MsiBlocking
import Gem5.MsiModes
import Gem5.MsiCoherence
import Gem5.MsiCoherenceSteps
import Gem5.MsiCoherenceDir
import Gem5.MsiCoherenceOrder
import Gem5.MsiSingleWriter
import Gem5.MsiAgreement
import Gem5.RubySet
import Gem5.BinaryHeap
import Gem5.MessageBuffer
import Gem5.MessageOrder
import Gem5.WaitingBuffers
import Gem5.CacheMemory
import Gem5.Sequencer
import Gem5.Throttle
import Gem5.TdmBus
import Gem5.ShortestPaths
import Gem5.Crossbar
import Gem5.XBarLayer
import Gem5.Bridge
import Gem5.BinList
import Gem5.EventQueue
import Gem5.RenameMap
import Gem5.Rename
import Gem5.DramTiming
import Gem5.AddrRangeMap
import Gem5.PrefixMask
import Gem5.LinkedTree
import Gem5.Trie
import Gem5.TrieInsert
import Gem5.TrieRemove
import Gem5.TrieMap
import Gem5.RubyPort
import Gem5.SlotArbiter
import Gem5.RubySliccUtil
import Gem5.BufferContents
import Gem5.VictimTree
import Gem5.PseudoLRU
import Gem5.TopologyPaths
import Gem5.Tournament
import Gem5.PacketFunctional
import Gem5.ReturnAddrStack
import Gem5.DyadicCount
import Gem5.StackDistCalc
import Gem5.StackDistTree
import Gem5.StackDistNaive
import Gem5.TraceReplay
import Gem5.MemChecker
import Gem5.MemCheckerScan
import Gem5.MemCheckerSound
import Gem5.ClockDomain
import Gem5.CircleBuf
import Gem5.PageTable
import Gem5.LruTags
import Gem5.DramDecode
import Gem5.DramWriteQueue
import Gem5.PacketQueue
import Gem5.Mshr
import Gem5.MemCheckerThinAir
import Gem5.ChunkGenerator
import Gem5.RubyMemoryControl
