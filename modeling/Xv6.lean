import Xv6.Fs.Proof.FileWrite
import Xv6.Fs.Proof.IgetRoom
import Xv6.Fs.Proof.Namex
import Xv6.Fs.Proof.SharedWrite
import Xv6.Io.Proof.BcacheFull
import Xv6.Io.Proof.BcacheLru
import Xv6.Io.Proof.ConsoleLines
import Xv6.Io.Proof.IdeError
import Xv6.Ipc.Proof.MailboxSleep
import Xv6.Ipc.Proof.PipeSleep
import Xv6.Kernel.Proof.CliInv
import Xv6.Kernel.Proof.MpEntries
import Xv6.Kernel.Proof.SleeplockInv
import Xv6.Kernel.Proof.SysSleep
import Xv6.Kernel.Proof.SyscallArgs
import Xv6.Log.Proof.History
import Xv6.Log.Proof.Reserve
import Xv6.Mkfs.Proof.Readback
import Xv6.Sched.Proof.KillExact
import Xv6.Sched.Proof.Share
import Xv6.Sched.Proof.TrapInit
import Xv6.Sh.Proof.Main
import Xv6.Sh.Proof.Run
import Xv6.Sh.Proof.Spans
import Xv6.User.Proof.Grep
import Xv6.User.Proof.Match
import Xv6.User.Proof.Wide
import Xv6.Vm.Proof.Copyuvm
import Xv6.Vm.Proof.Dealloc
import Xv6.Vm.Proof.ExecResult
