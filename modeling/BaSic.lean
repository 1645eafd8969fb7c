import BaSic.Lib.Steps
import BaSic.Lib.Links
import BaSic.Kernel.Disk
import BaSic.Proofs.DiskCache
import BaSic.Proofs.DiskRefinement
import BaSic.Proofs.DiskFailures
import BaSic.Lib.Words
import BaSic.Lib.Tiling
import BaSic.Mm.Heap
import BaSic.Mm.FirstFit
import BaSic.Proofs.HeapBlocks
import BaSic.Proofs.HeapAlloc
import BaSic.Proofs.HeapFree
import BaSic.Proofs.HeapSystem
import BaSic.Kernel.Fat12
import BaSic.Kernel.Fat12Files
import BaSic.Proofs.FatChains
import BaSic.Proofs.Directory
import BaSic.Proofs.FileData
import BaSic.Proofs.Volume
import BaSic.Proofs.FileOps
import BaSic.Lib.ChainSystem
import BaSic.Proofs.FatInvariant
import BaSic.Proofs.FatWrite
import BaSic.Proofs.ChainInvariant
import BaSic.Proofs.Formatted
import BaSic.Proofs.FatNames
import BaSic.Proofs.ReadBack
import BaSic.Proofs.OtherFiles
import BaSic.Proofs.Shadowing
import BaSic.Proofs.FatCopies
import BaSic.Proofs.NameRoundTrip
import BaSic.Proofs.HeapCoalesce
import BaSic.Lib.Bitmap
import BaSic.Mm.Pmm
import BaSic.Proofs.PmmScan
import BaSic.Proofs.PmmFrames
import BaSic.Lib.TwoLevel
import BaSic.Mm.Vmm
import BaSic.Proofs.VmmTables
import BaSic.Proofs.VmmMap
import BaSic.Proofs.VmmRights
import BaSic.Proofs.HeapFrames
import BaSic.Kernel.Process
import BaSic.Kernel.Signal
import BaSic.Kernel.Sched
import BaSic.Proofs.TaskTable
import BaSic.Proofs.Zombies
import BaSic.Proofs.SchedOwner
import BaSic.Proofs.SchedContexts
import BaSic.Lib.Stack32
import BaSic.Kernel.Irq
import BaSic.Proofs.IrqReturn
import BaSic.Proofs.Pids
import BaSic.Proofs.Parents
import BaSic.Proofs.SigTable
import BaSic.Proofs.SignalDelivery
import BaSic.Kernel.Pipe
import BaSic.Lib.Fifo
import BaSic.Fs.Ramfs
import BaSic.Fs.Fd
import BaSic.Proofs.FdTable
import BaSic.Proofs.FdFiles
import BaSic.Kernel.Syscall
import BaSic.Proofs.SysCalls
import BaSic.Proofs.PipePool
import BaSic.Proofs.SysTargets
import BaSic.Kernel.Shell
import BaSic.Lib.Forest
import BaSic.Proofs.ShellEdits
import BaSic.Proofs.RamfsTree
import BaSic.Proofs.SiblingNames
import BaSic.Proofs.FatBounds
import BaSic.Proofs.FatAccess
import BaSic.Kernel.Calc
import BaSic.Proofs.CalcTree
import BaSic.Proofs.CalcEval
import BaSic.CString
import BaSic.Kernel.Env
import BaSic.Lib.SlotTable
import BaSic.Proofs.EnvMap
import BaSic.Kernel.Filemeta
import BaSic.Proofs.FilePerms
import BaSic.Kernel.Editor
import BaSic.Kernel.EditorFiles
import BaSic.Lib.Tabulate
import BaSic.Lib.TextBuffer
import BaSic.Proofs.EditorText
import BaSic.Proofs.EditorKeys
import BaSic.Proofs.EditorSave
import BaSic.Kernel.Klog
import BaSic.Proofs.KlogDump
import BaSic.Proofs.RamfsBlocks
import BaSic.Proofs.WorkDir
import BaSic.Kernel.CmdLine
import BaSic.Kernel.ShellRun
import BaSic.Proofs.CmdBounds
import BaSic.Proofs.CmdRuns
import BaSic.Proofs.CmdEntries
import BaSic.Proofs.FatCapacity
import BaSic.Proofs.RootListing
import BaSic.Proofs.HistoryFile
import BaSic.Kernel.E1000
import BaSic.Proofs.RxRing
import BaSic.Kernel.Net
import BaSic.Proofs.NetBounds
import BaSic.Proofs.UdpRoundTrip
import BaSic.Proofs.VmmUnmap
import BaSic.Lib.Circle
import BaSic.Proofs.RoundRobin
import BaSic.Proofs.Dispatch
import BaSic.Proofs.SignalOnce
import BaSic.Proofs.SignalTarget
import BaSic.Proofs.UserHeap
import BaSic.Proofs.RamfsBounds
import BaSic.Lib.Decimal
import BaSic.Kprintf
import BaSic.Kernel.CmdCalc
import BaSic.Proofs.CalcSteps
import BaSic.Proofs.CalcPrint
import BaSic.Lib.Parts
import BaSic.Proofs.EditorLoad
import BaSic.Lib.FirstHit
import BaSic.Proofs.EditorFind
import BaSic.Proofs.PathWalk
import BaSic.Proofs.FileSizes
import BaSic.Proofs.MadeNodes
import BaSic.Proofs.WriteReplace
import BaSic.Proofs.CopyFile
import BaSic.Proofs.HeapRoom
import BaSic.Proofs.MakeOutcome
import BaSic.Proofs.RepeatLast
import BaSic.Proofs.HistoryLog
import BaSic.Proofs.HistoryKeys
import BaSic.Proofs.CommandNames
import BaSic.Kernel.ScriptRun
import BaSic.Proofs.ScriptRuns
import BaSic.Kernel.TextCmds
import BaSic.Proofs.TextFeed
import BaSic.Proofs.TextRows
import BaSic.Proofs.TextLines
import BaSic.Lib.Bubble
import BaSic.Proofs.SortFile
import BaSic.Proofs.OutputRoom
import BaSic.Kernel.DiskCmds
import BaSic.Proofs.DiskWriteReport
import BaSic.Lib.Calendar
import BaSic.Kernel.Rtc
import BaSic.Proofs.DateOffset
import BaSic.Lib.Fields
import BaSic.Proofs.IcmpReply
import BaSic.Kernel.Timer
import BaSic.Proofs.TimerSleep
import BaSic.Kernel.Keyboard
import BaSic.Proofs.KeyFlags
import BaSic.Lib.ForLoop
import BaSic.Lib.Terminal
import BaSic.Kernel.Vga
import BaSic.Proofs.VgaScreen
import BaSic.Proofs.ArpCache
import BaSic.MemCopy
import BaSic.Kernel.Elf
import BaSic.Proofs.ElfLoad
import BaSic.Proofs.ElfReads
import BaSic.Proofs.ElfSegments
import BaSic.Lib.Writes
import BaSic.StrCopy
import BaSic.Proofs.StrncpyCells
import BaSic.Proofs.ShortNames
import BaSic.Lib.Canvas
import BaSic.Kernel.Shooter
import BaSic.Proofs.ShooterSteps
import BaSic.Proofs.ShooterScreen
import BaSic.Proofs.ShooterRules
import BaSic.Proofs.ShooterWaves
import BaSic.Proofs.Reboot
import BaSic.Lib.Soup
import BaSic.Proofs.Ethernet
import BaSic.Proofs.KprintfText
import BaSic.Kernel.EditorScreen
import BaSic.Proofs.EditorScreen
import BaSic.Lib.Mailbox
import BaSic.Kernel.Terminal
import BaSic.Proofs.TermInput
import BaSic.Proofs.TxRing
import BaSic.Kernel.ShellScreen
import BaSic.Lib.Preorder
import BaSic.Proofs.FindCmd
import BaSic.Proofs.LineEditor
import BaSic.Proofs.ShellScreen
