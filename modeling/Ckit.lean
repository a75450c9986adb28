import Ckit.HeapIndex
import Ckit.Pbuf
import Ckit.Signal
import Ckit.TimerRace
import Ckit.TimerWake
import Ckit.HashtableSpec
import Ckit.HashtableMap
import Ckit.HashtableThreads
import Ckit.HashtableRefs
import Ckit.LinkedTree
import Ckit.Rbtree
import Ckit.RbtreeInsert
import Ckit.RbtreeRun
import Ckit.ListSeq
import Ckit.HeapConserve
import Ckit.PbufPool
import Ckit.PbufPoolSpec
import Ckit.PbufPoolThreads
import Ckit.PbufPoolRefs
import Ckit.PbufCycle
import Ckit.HashtableUnhash
import Ckit.Event
import Ckit.EventAgree
import Ckit.TimerDeadline
import Ckit.TimerClock
import Ckit.SignalVal
import Ckit.Debug
import Ckit.DebugLife
import Ckit.TimerReport
import Ckit.RbtreeBst
import Ckit.RbtreeCopy
import Ckit.RbtreePrint
import Ckit.RbtreeRotate
import Ckit.HashtableCount
import Ckit.HashtableForeach
import Ckit.Cells
import Ckit.Hash
import Ckit.Hexdump
import Ckit.SignalClear
import Ckit.RbtreeParents
import Ckit.RbtreeDefault
import Ckit.PbufBytes
import Ckit.HeapSift
import Ckit.Traced
import Ckit.HeapLog
import Ckit.HeapWrap
import Ckit.TimerDestroy
import Ckit.ListSafe
import Ckit.HashtableSlots
import Ckit.HashtableShared
import Ckit.HashtableSole
import Ckit.HashtableOwner
import Ckit.RbtreeRecolour
import Ckit.Linear
import Ckit.HashtableLinear
import Ckit.HashtableWalk
import Ckit.Ledger
import Ckit.HashBurst
import Ckit.HeapCost
import Ckit.RbtreeCost
import Ckit.RbtreeDestroy
import Ckit.HeapReverse
import Ckit.TimerReverse
import Ckit.SignalBound
import Ckit.PbufHeaders
import Ckit.HexdumpDecode
import Ckit.Resources
import Ckit.TimerSystem
import Ckit.TimerLife
import Ckit.EventWait
