import OsLab.Lib.Run
import OsLab.Lib.Exec
import OsLab.Lib.History
import OsLab.Lib.Bytes
import OsLab.Lib.OpenFile
import OsLab.Lib.Seg
import OsLab.Lib.Word
import OsLab.Lib.Slots
import OsLab.Lib.Strcmp
import OsLab.Lib.FifoQueue
import OsLab.Lib.Dispatch
import OsLab.Lib.Serial
import OsLab.Lib.SearchTree
import OsLab.Lib.Average
import OsLab.Lib.Ledger
import OsLab.Lib.Descend
import OsLab.Lib.Inherit
import OsLab.Malloc
import OsLab.FirstFit
import OsLab.Lemmas.Blocks
import OsLab.Lemmas.MallocOps
import OsLab.Theorems.Malloc
import OsLab.Theorems.MallocSizes
import OsLab.Theorems.MallocFirstFit
import OsLab.HookMalloc
import OsLab.Lemmas.HookProg
import OsLab.Lemmas.HookInv
import OsLab.Theorems.HookMalloc
import OsLab.Memfs
import OsLab.NameStore
import OsLab.FileHistory
import OsLab.FileCalls
import OsLab.FileClients
import OsLab.Lemmas.MemfsTable
import OsLab.Lemmas.MemfsCalls
import OsLab.Lemmas.MemfsClients
import OsLab.Lemmas.MemfsHistory
import OsLab.Lemmas.MemfsNames
import OsLab.Theorems.Memfs
import OsLab.Theorems.MemfsFiles
import OsLab.Theorems.MemfsClients
import OsLab.Theorems.MemfsPaths
import OsLab.Vmem
import OsLab.VmemSpec
import OsLab.VmemFault
import OsLab.Lemmas.VmemPages
import OsLab.Lemmas.VmemChoose
import OsLab.Lemmas.VmemPager
import OsLab.Lemmas.VmemPrograms
import OsLab.Lemmas.VmemAccess
import OsLab.Lemmas.VmemLog
import OsLab.Lemmas.VmemClock
import OsLab.Theorems.Vmem
import OsLab.Theorems.VmemBooks
import OsLab.Theorems.VmemScan
import OsLab.Theorems.VmemOutside
import OsLab.SwapFile
import OsLab.Theorems.SwapFile
import OsLab.Pool
import OsLab.Lemmas.PoolQueue
import OsLab.Lemmas.PoolFlow
import OsLab.Lemmas.PoolShutdown
import OsLab.Lemmas.PoolWake
import OsLab.Theorems.Pool
import OsLab.Coroutine
import OsLab.SlotLife
import OsLab.Lemmas.CoroutineInv
import OsLab.Lemmas.CoroutineMoves
import OsLab.Lemmas.CoroutineStep
import OsLab.Lemmas.CoroutineLives
import OsLab.Theorems.Coroutine
import OsLab.Theorems.CoroutineSpawn
import OsLab.Cooperative
import OsLab.Lemmas.CooperativeInv
import OsLab.Lemmas.CooperativeLoop
import OsLab.Theorems.Cooperative
import OsLab.Theorems.CooperativeRounds
import OsLab.Eevdf
import OsLab.Lemmas.EevdfBooks
import OsLab.Lemmas.EevdfSteps
import OsLab.Lemmas.EevdfPick
import OsLab.Lemmas.EevdfLag
import OsLab.Theorems.Eevdf
import OsLab.Bandwidth
import OsLab.Lemmas.BandwidthInv
import OsLab.Lemmas.BandwidthTotal
import OsLab.Lemmas.BandwidthDistribute
import OsLab.Theorems.Bandwidth
import OsLab.RtRuntime
import OsLab.Lemmas.RtRuntimeInv
import OsLab.Theorems.RtRuntime
import OsLab.RtQueue
import OsLab.Lemmas.RtQueueLocal
import OsLab.Lemmas.RtQueueInv
import OsLab.Lemmas.RtQueueSave
import OsLab.Lemmas.RtQueueSteps
import OsLab.Lemmas.RtQueuePick
import OsLab.Theorems.RtQueue
import OsLab.Wakeup
import OsLab.Lemmas.WakeupInv
import OsLab.Lemmas.WakeupCpu
import OsLab.Lemmas.WakeupAgents
import OsLab.Lemmas.WakeupPromise
import OsLab.Theorems.Wakeup
import OsLab.TaskGroup
import OsLab.Lemmas.TaskGroupWalk
import OsLab.Lemmas.TaskGroupTree
import OsLab.Theorems.TaskGroup
import OsLab.RtAdmission
import OsLab.Lemmas.RtAdmissionInv
import OsLab.Theorems.RtAdmission
import OsLab.CfsQuota
import OsLab.Lemmas.CfsQuotaInv
import OsLab.Lemmas.CfsQuotaRuns
import OsLab.Theorems.CfsQuota
import OsLab.Uclamp
import OsLab.Lemmas.UclampClamp
import OsLab.Lemmas.UclampRuns
import OsLab.Theorems.Uclamp
