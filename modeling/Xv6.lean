import Xv6.Lib.Prog
import Xv6.Lib.Pool
import Xv6.Param
import Xv6.Fs.Inode
import Xv6.Fs.Path
import Xv6.Fs.Components
import Xv6.Fs.Syscall
import Xv6.Fs.OneCopy
import Xv6.Fs.LockOrder
import Xv6.Fs.Proof.AccountCalls
import Xv6.Fs.Proof.LockInv
import Xv6.Fs.Balance
import Xv6.Fs.Deadlock
import Xv6.Fs.Tree
import Xv6.Fs.Proof.TreeRep
import Xv6.Fs.Proof.SeqInv
import Xv6.Fs.Proof.SeqCalls
import Xv6.Fs.Proof.SeqSyscall
import Xv6.Fs.Proof.SeqRun
import Xv6.Fs.TreeShape
import Xv6.Fs.LinkCount
import Xv6.Fs.Lookup
import Xv6.Icache.Model
import Xv6.Lib.Machine
import Xv6.Icache.Inv
import Xv6.Icache.Reclaim
import Xv6.Icache.Soundness
import Xv6.Log.Model
import Xv6.Log.Protocol
import Xv6.Log.BufInv
import Xv6.Log.LogInv
import Xv6.Log.BufSteps
import Xv6.Log.LogSteps
import Xv6.Log.CrashAtomic
import Xv6.Vm.Model
import Xv6.Vm.Spec
import Xv6.Lib.Ring
import Xv6.Ipc.Fifo
import Xv6.Ipc.Wakeup
import Xv6.Log.Admission
import Xv6.Log.AdmissionInv
import Xv6.Log.Reservation
import Xv6.Lib.Trace
import Xv6.Syscall.Args
import Xv6.Syscall.UserAccess
import Xv6.Syscall.UserString
import Xv6.File.Model
import Xv6.File.Accounting
import Xv6.File.Steps
import Xv6.File.ProcSteps
import Xv6.File.Soundness
import Xv6.Lib.LinkedRing
import Xv6.Bcache.Model
import Xv6.Bcache.Inv
import Xv6.Bcache.Steps
import Xv6.Bcache.Coherence
import Xv6.Disk.Layout
import Xv6.Lib.Owner
import Xv6.Disk.Model
import Xv6.Disk.Owned
import Xv6.Disk.Bmap
import Xv6.Disk.Itrunc
import Xv6.Disk.Content
import Xv6.Disk.FileRefinement
import Xv6.Disk.Format
import Xv6.Disk.State
import Xv6.Disk.Use
import Xv6.Disk.UseCalls
import Xv6.Disk.UseSyscall
import Xv6.Disk.Update
import Xv6.Disk.Inv
import Xv6.Disk.Steps
import Xv6.Disk.Accounts
import Xv6.Disk.Transaction
import Xv6.Thread.Balance
import Xv6.Ipc.Sleeplock
import Xv6.Thread.Cond
import Xv6.Thread.Semaphore
import Xv6.Thread.Mailbox
import Xv6.Ptable.Model
import Xv6.Ptable.Moves
import Xv6.Lib.Forest
import Xv6.Ptable.Family
import Xv6.Ptable.Inv
import Xv6.Ptable.Forest
import Xv6.Ptable.Wait
import Xv6.Ptable.Entries
import Xv6.Ptable.Kill
import Xv6.Ptable.Reapers
import Xv6.Ptable.States
import Xv6.Sched.Model
import Xv6.Sched.Exclusive
import Xv6.Lib.Ledger
import Xv6.Vm.Frames
import Xv6.Vm.Isolation
import Xv6.Vm.Lifecycle
import Xv6.Vm.Grow
import Xv6.Vm.Copyout
import Xv6.Vm.Dump
import Xv6.Vm.Tables
import Xv6.Vm.Fork
import Xv6.Memory.Model
import Xv6.Memory.Steps
import Xv6.Memory.Directory
import Xv6.Memory.Size
import Xv6.Memory.Accounts
import Xv6.Console.Model
import Xv6.Console.Discipline
import Xv6.Ide.Model
import Xv6.Ide.Refinement
import Xv6.Fs.Account
import Xv6.Fs.Resolve
import Xv6.Disk.Filewrite
import Xv6.Vm.PageMap
import Xv6.Vm.KernelMap
import Xv6.User.Memmove
import Xv6.Boot.Mpinit
import Xv6.Sched.Cli
import Xv6.User.Grep
