import Xv6.Lib.Run
import Xv6.Lib.Bytes
import Xv6.Lib.Prog
import Xv6.Lib.Own
import Xv6.Lib.Threads
import Xv6.Vm.Memory
import Xv6.Vm.Table
import Xv6.Vm.Kernel
import Xv6.Vm.Address
import Xv6.Vm.Process
import Xv6.Vm.Ledger
import Xv6.Vm.Rules
import Xv6.Vm.FileRules
import Xv6.Vm.AddressSafe
import Xv6.Vm.ProcessSafe
import Xv6.Vm.ExecSafe
import Xv6.Vm.System
import Xv6.Vm.Leak
import Xv6.Vm.Isolation
import Xv6.Log.Model
import Xv6.Log.Ops
import Xv6.Log.Admission
import Xv6.Log.Crash
import Xv6.Sched.Model
import Xv6.Sched.Dispatch
import Xv6.Vm.Copyout
import Xv6.Vm.Fault
import Xv6.Vm.Permission
import Xv6.Vm.Files
import Xv6.Console.Model
import Xv6.Console.Ring
import Xv6.Log.Procs
import Xv6.Bio.Model
import Xv6.Log.Group
import Xv6.Bio.Inv
import Xv6.Bio.Rules
import Xv6.Bio.LogRules
import Xv6.Bio.Store
import Xv6.Vm.Spaces
import Xv6.Lib.Ring
import Xv6.Sync.Calls
import Xv6.Sync.KillLost
import Xv6.Sync.Pipe
import Xv6.Family.Children
import Xv6.Family.Kill
import Xv6.Family.Times
import Xv6.Console.Recall
import Xv6.Console.Saved
import Xv6.Lib.Depth
import Xv6.Shell.Accepts
import Xv6.Shell.Exact
import Xv6.Lib.Cycle
import Xv6.Malloc.Alloc
import Xv6.Malloc.Heap
import Xv6.Malloc.Overflow
import Xv6.Fs.Format
import Xv6.Mkfs.Alloc
import Xv6.Mkfs.Append
import Xv6.Mkfs.Image
import Xv6.Vm.FiniteMap
import Xv6.Lib.Pair
import Xv6.Vm.Context
import Xv6.Vm.Exact
import Xv6.Vm.Failure
import Xv6.Vm.Loader
import Xv6.Grep.Match
import Xv6.Sched.Choice
import Xv6.Sync.PipeRead
import Xv6.Vm.FreeRam
import Xv6.Fs.Dir
import Xv6.Fs.Fault
import Xv6.Fs.Namex
import Xv6.Fs.Reserve
import Xv6.Malloc.Sbrk
import Xv6.Mkfs.Readback
import Xv6.Memmove
import Xv6.Fs.Bitmap
import Xv6.Grep.Lines
import Xv6.Bio.Lru
import Xv6.Sync.Uart
import Xv6.Log.Refine
