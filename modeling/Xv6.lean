import Xv6.Bio.Lru
import Xv6.Bio.Pinned
import Xv6.Boot
import Xv6.Console.Line
import Xv6.Exec.Outcome
import Xv6.Grep.Lines
import Xv6.Icache.Iput
import Xv6.Ide.Refine
import Xv6.Kernel.Alone.Chunks
import Xv6.Kernel.Alone.Directory
import Xv6.Kernel.Alone.Resolve
import Xv6.Kernel.PipeCall
import Xv6.Kernel.Transactions
import Xv6.Log.Reservation
import Xv6.Mkfs.Agree
import Xv6.Mp
import Xv6.Nice
import Xv6.Pipe.Fifo
import Xv6.Pipe.Wakeup
import Xv6.Printf.Bound
import Xv6.Printf.Console
import Xv6.Printf.Numbers
import Xv6.Sched.Priority
import Xv6.Shell.Parser
import Xv6.Shell.Plumbing
import Xv6.Sleep.Exclusion
import Xv6.Sleep.Ticks
import Xv6.Spinlock
import Xv6.Strings
import Xv6.Syscall.Confined
import Xv6.Umalloc.Integrity
import Xv6.Umalloc.Sizes
import Xv6.Vm.Exact
import Xv6.Vm.Flat
