import Xv6.Log.Crash
import Xv6.Log.Reservation
import Xv6.Log.GroupCommit
import Xv6.Ptable.Wait
import Xv6.Ptable.Kill
import Xv6.Pipes.Wakeup
import Xv6.Sleeplock
import Xv6.Console.Reads
import Xv6.Fs.Resolve
import Xv6.Fs.InodeRefs
import Xv6.Umalloc.Break
import Xv6.Disk.Agreement
import Xv6.Disk.Crowded
import Xv6.Disk.SharedOffset
import Xv6.Vm.Translate
import Xv6.Sys.Release
import Xv6.Sys.ForkFailure
import Xv6.Sh.Words
import Xv6.Grep.Lines
import Xv6.Mp
import Xv6.Sys.Pointers
import Xv6.Sys.Stack
import Xv6.Sys.Isolation
import Xv6.Ide.Refines
import Xv6.Bio.Coherent
