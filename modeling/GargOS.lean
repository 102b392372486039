import GargOS.Lib.ByteMemory
import GargOS.Lib.AddressSpace
import GargOS.Lib.Tiling
import GargOS.Lib.FreeRuns
import GargOS.Heap
import GargOS.HeapHeaders
import GargOS.HeapBlocks
import GargOS.HeapWalks
import GargOS.HeapCalls
import GargOS.HeapRuns
import GargOS.HeapGrowth
import GargOS.FirstFit
import GargOS.MallocEnds
import GargOS.Lib.ByteLanes
import GargOS.Pci
import GargOS.Keyboard
import GargOS.Scheduler
import GargOS.SchedulerRuns
import GargOS.Lib.CyclicOrder
import GargOS.RoundRobin
import GargOS.Timer
import GargOS.Lib.WordFrames
import GargOS.ContextSwitch
import GargOS.Lib.Pages
import GargOS.Paging
import GargOS.Lib.Bitsets
import GargOS.PagingTables
import GargOS.PagingCalls
import GargOS.PagingDirectories
import GargOS.Lib.Ledger
import GargOS.PagingRuns
import GargOS.FrameLeaks
import GargOS.KernelRegions
import GargOS.HeapPaging
import GargOS.KernelHalf
import GargOS.ProcessHeaps
import GargOS.KernelFrames
import GargOS.LowStructures
import GargOS.Lib.LineWrap
import GargOS.Screen
import GargOS.ScreenRuns
import GargOS.Terminal
import GargOS.PciScan
import GargOS.HeapUnites
import GargOS.PointUpdate
import GargOS.FrameCalls
import GargOS.EffectiveFlags
import GargOS.StaleTables
import GargOS.Elf
import GargOS.Irq
import GargOS.ElfLoad
import GargOS.AlignedReuse
import GargOS.ProcessTable
import GargOS.TimerFreq
import GargOS.ScreenEdits
import GargOS.Lib.Emission
import GargOS.KeyTyping
import GargOS.PciVisits
import GargOS.TableGrowth
import GargOS.PageLookup
import GargOS.Lib.Numerals
import GargOS.Printing
import GargOS.Printf
import GargOS.FrameBitset
import GargOS.Lib.Unwinding
import GargOS.Isolation
import GargOS.KernelMemory
import GargOS.Noninterference
import GargOS.Lib.Countdown
import GargOS.BoundedWait
import GargOS.InterruptTable
import GargOS.SparedData
import GargOS.VectorTables
import GargOS.InterruptFrames
import GargOS.InterruptLines
import GargOS.UnseenInterrupts
import GargOS.FaultReports
import GargOS.Lib.Delimited
import GargOS.PageFaults
import GargOS.Lib.Records
import GargOS.ProcessRecords
import GargOS.ProcessArray
import GargOS.KernelRuns
