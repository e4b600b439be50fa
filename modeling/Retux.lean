import Retux.Lib.Word
import Retux.Lib.Forest
import Retux.Lib.Loop
import Retux.Lib.Pool
import Retux.Lib.Run
import Retux.Lib.Refine
import Retux.Lib.Ring
import Retux.Lib.Fifo
import Retux.Lib.Stack
import Retux.Lib.Bytes
import Retux.Lib.Trace
import Retux.Lib.SysV
import Retux.Lib.Tags
import Retux.Mem.Pmm
import Retux.Mem.Vmm
import Retux.Mem.Entry
import Retux.Mem.Space
import Retux.Mem.Translate
import Retux.Mem.Map
import Retux.Mem.Create
import Retux.Mem.Clone
import Retux.Mem.Destroy
import Retux.Mem.Spaces
import Retux.Mem.Low
import Retux.Mem.Boot
import Retux.Mem.Lifetime
import Retux.Mem.Growth
import Retux.Mem.Page
import Retux.Mem.Regs
import Retux.Mem.Levels
import Retux.Mem.Physmap
import Retux.Mem.Remap
import Retux.Mem.Zones
import Retux.Mem.Access
import Retux.Mem.Heap
import Retux.Mem.HeapRun
import Retux.Mem.Kmalloc
import Retux.Mem.Grown
import Retux.Sys.Memory
import Retux.Sys.Mmap
import Retux.Sys.Munmap
import Retux.Sys.Brk
import Retux.Cpu.Stubs
import Retux.Task.Sched
import Retux.Task.Views
import Retux.Task.Account
import Retux.Task.Moves
import Retux.Task.Queue
import Retux.Task.Loaded
import Retux.Task.Turns
import Retux.Task.Waiting
import Retux.Task.Reap
import Retux.Task.Lineage
import Retux.Task.Context
import Retux.Task.Ring3
import Retux.Task.Fds
import Retux.Task.Forked
import Retux.Task.Preempt
import Retux.Task.Copy
import Retux.Task.Elf
import Retux.Task.Image
import Retux.Task.Stack
import Retux.Task.Execve
import Retux.Task.Replace
import Retux.Task.Program
import Retux.Task.Bounds
import Retux.Task.Switch
import Retux.Boot.Mb2
import Retux.Boot.Acpi
import Retux.Cpu.Irq
import Retux.Boot.Frames
import Retux.Tty.Console
import Retux.Tty.Sheet
import Retux.Io.Keyboard
import Retux.Sys.Stdin
import Retux.Sys.Terminal
import Retux.Lib.Paging
import Retux.Lib.Tree
import Retux.Str.Strncpy
import Retux.Str.Compare
import Retux.Fs.Vfs
import Retux.Fs.Partition
import Retux.Fs.Path
import Retux.Fs.Tar
import Retux.Fs.Proc
import Retux.Fs.Ext2
import Retux.Fs.Tree
import Retux.Fs.Links
import Retux.Fs.Mount
import Retux.Fs.Extent
import Retux.Fs.BlockMap
import Retux.Fs.Contents
import Retux.Fs.Ext2Mount
import Retux.Fs.Ext2Scan
import Retux.Fs.Ext2End
import Retux.Fs.Capacity
import Retux.Fs.Drivers
import Retux.Fs.Open
import Retux.Fs.Traverse
import Retux.Sys.Read
import Retux.Sys.Getdents
import Retux.Sys.Files
import Retux.Sys.Descriptions
import Retux.Dev.Ahci
import Retux.Dev.Disk
import Retux.Lib.Decimal
