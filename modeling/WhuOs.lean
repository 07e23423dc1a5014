import WhuOs.Lib.Prog
import WhuOs.Lib.Bytes
import WhuOs.Lib.Bits
import WhuOs.Lib.PtrTree
import WhuOs.Fs.Types
import WhuOs.Fs.Buf
import WhuOs.Fs.Store
import WhuOs.Fs.Bitmap
import WhuOs.Fs.Inode
import WhuOs.Fs.Dir
import WhuOs.Mkfs
import WhuOs.Lib.Ring
import WhuOs.Lib.Recency
import WhuOs.Lib.Chain
import WhuOs.Lib.Table
import WhuOs.Fs.BufRing
import WhuOs.Fs.BufLru
import WhuOs.Fs.BufClient
import WhuOs.Fs.Volume
import WhuOs.MkfsSpec
import WhuOs.MkfsFiles
import WhuOs.Fs.Mount
import WhuOs.Fs.Primitives
import WhuOs.Fs.Blocking
import WhuOs.Fs.Frames
import WhuOs.Fs.Icache
import WhuOs.Fs.Balance
import WhuOs.Fs.Sizes
import WhuOs.Fs.File
import WhuOs.Fs.FileTable
import WhuOs.Fs.InodeArea
import WhuOs.Fs.Allocators
import WhuOs.Fs.BlockTree
import WhuOs.Fs.Locate
import WhuOs.Fs.FileData
import WhuOs.Fs.FileWrite
import WhuOs.Fs.FileFree
import WhuOs.Fs.FileRuns
import WhuOs.Fs.Durable
import WhuOs.Fs.HostFiles
import WhuOs.Fs.Confine
import WhuOs.Fs.Offsets
import WhuOs.Fs.Entries
import WhuOs.Fs.Sound
import WhuOs.Fs.Handles
import WhuOs.Fs.DirRead
import WhuOs.Fs.PathSearch
import WhuOs.Fs.PathLocks
import WhuOs.Fs.FullDir
import WhuOs.Fs.Mkdir
import WhuOs.Fs.Namespace
import WhuOs.Fs.HandleRuns
import WhuOs.Mem.Types
import WhuOs.Mem.Pmem
import WhuOs.Mem.PmemRuns
import WhuOs.Mem.Kvm
import WhuOs.Mem.Walk
import WhuOs.Mem.Ledger
import WhuOs.Mem.PageTable
import WhuOs.Mem.Unmap
import WhuOs.Mem.PageMap
import WhuOs.Mem.Mmap
import WhuOs.Mem.Uvm
import WhuOs.Mem.Proc
import WhuOs.Mem.Sys
import WhuOs.Mem.Space
import WhuOs.Mem.Copy
import WhuOs.Mem.UserCopy
import WhuOs.Mem.Destroy
import WhuOs.Mem.NewSpace
import WhuOs.Mem.World
import WhuOs.Mem.Lists
import WhuOs.Mem.Calls
import WhuOs.Mem.Control
import WhuOs.Mem.Procs
import WhuOs.Mem.CopySpace
import WhuOs.Mem.ExecTrace
import WhuOs.Mem.ExecSpace
import WhuOs.Mem.ExecArgs
import WhuOs.Mem.ExecStack
import WhuOs.Mem.ExecEnd
import WhuOs.Mem.ExecBlock
import WhuOs.Mem.ExecLoad
import WhuOs.Mem.ExecBounds
import WhuOs.Mem.ExecImage
import WhuOs.Mem.ExecAnswer
import WhuOs.Mem.Fork
import WhuOs.Mem.Boot
import WhuOs.Mem.Brk
import WhuOs.Mem.Sched
import WhuOs.Mem.Moves
import WhuOs.Mem.Family
import WhuOs.Mem.FamilyRuns
import WhuOs.Lib.Trace
import WhuOs.Trap
import WhuOs.Dev.VirtioProtocol
import WhuOs.Fs.OffsetArith
import WhuOs.Fs.NameBuffer
import WhuOs.Lib.Erase
import WhuOs.Lib.Interval
import WhuOs.Mem.Trim
import WhuOs.Mem.UserPages
import WhuOs.Mem.HeapTop
import WhuOs.Mem.Teardown
import WhuOs.Mem.TableRuns
import WhuOs.Str
import WhuOs.Spinlock
import WhuOs.Mem.Isolation
import WhuOs.Mem.Syscall
import WhuOs.Mem.Tenancy
import WhuOs.Mem.Service
import WhuOs.Mem.UserSteps
import WhuOs.Mem.System
