import HeroOS.Word
import HeroOS.Outcome
import HeroOS.Moves
import HeroOS.Memory
import HeroOS.Run
import HeroOS.BitArray
import HeroOS.Pmm
import HeroOS.Ledger
import HeroOS.PmmRuns
import HeroOS.Kheap
import HeroOS.LinkedList
import HeroOS.KheapBlocks
import HeroOS.KheapList
import HeroOS.KheapFree
import HeroOS.KheapAlloc
import HeroOS.KheapRuns
import HeroOS.KheapTiling
import HeroOS.Paging
import HeroOS.RadixTree
import HeroOS.PagingTables
import HeroOS.PagingRuns
import HeroOS.BootPaging
import HeroOS.PagingLinear
import HeroOS.Process
import HeroOS.Sched
import HeroOS.SchedRuns
import HeroOS.ProcessStates
import HeroOS.ProcessTable
import HeroOS.TimerIrq
import HeroOS.PmmCount
import HeroOS.Pipe
import HeroOS.MsgQueue
import HeroOS.CString
import HeroOS.Vfs
import HeroOS.Tmpfs
import HeroOS.TmpfsListing
import HeroOS.TmpfsFile
import HeroOS.ArrayList
import HeroOS.Forest
import HeroOS.SchedFairness
import HeroOS.TmpfsTree
import HeroOS.TmpfsNames
import HeroOS.TmpfsFiles
import HeroOS.TmpfsOpen
import HeroOS.TmpfsLeak
import HeroOS.TmpfsPaths
import HeroOS.TmpfsFrame
import HeroOS.VfsMount
import HeroOS.Shm
import HeroOS.ShmRuns
import HeroOS.ShmAttached
import HeroOS.Vmm
import HeroOS.VmmRuns
import HeroOS.AddressSpaces
import HeroOS.Instr
import HeroOS.ContextSwitch
import HeroOS.SwitchChain
import HeroOS.ExitSignals
import HeroOS.SysKill
import HeroOS.RunQueue
import HeroOS.Keyboard
import HeroOS.KeyboardRuns
import HeroOS.KeyboardShift
import HeroOS.Shell
import HeroOS.VmmLeak
import HeroOS.IdPool
import HeroOS.IpcIds
import HeroOS.VruntimeWrap
import HeroOS.Multiboot
import HeroOS.PmmInit
import HeroOS.KheapWrap
import HeroOS.Font8x16
import HeroOS.Framebuffer
import HeroOS.FbTerminal
import HeroOS.PmmSearch
import HeroOS.PmmMaps
import HeroOS.Mb2Walk
import HeroOS.Mb2Block
import HeroOS.KheapNull
import HeroOS.KheapCalloc
import HeroOS.TmpfsWrite
import HeroOS.KheapFit
import HeroOS.KheapAligned
import HeroOS.KheapRealloc
import HeroOS.KheapDoubleFree
import HeroOS.Printk
import HeroOS.PrintkFormat
import HeroOS.Calendar
import HeroOS.Rtc
import HeroOS.RtcTimestamp
import HeroOS.VmmRange
import HeroOS.PagingUser
import HeroOS.VfsBuffer
import HeroOS.VfsUnmount
import HeroOS.PickNext
import HeroOS.Positional
import HeroOS.Numerals
import HeroOS.ShellHistory
import HeroOS.Words
import HeroOS.Bits
import HeroOS.Tokenize
import HeroOS.KeyboardCaps
import HeroOS.FbRect
import HeroOS.Driver
import HeroOS.ShellCat
import HeroOS.Memmove
import HeroOS.Strstr
import HeroOS.VfsSplit
import HeroOS.Mb2Tags
import HeroOS.Gdt
import HeroOS.Idt
import HeroOS.Stack
import HeroOS.Interrupt
import HeroOS.InterruptReturn
import HeroOS.Preemption
import HeroOS.CheckedBuffer
import HeroOS.Serial
import HeroOS.Pic
import HeroOS.Syscalls
import HeroOS.StringLoops
import HeroOS.InitFs
import HeroOS.ShellExec
import HeroOS.ShellEditor
import HeroOS.ShellScreen
