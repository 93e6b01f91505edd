import Xv6.Swap.Clock
import Xv6.System.Loader
import Xv6.Sched.Slices
import Xv6.Storage.Crash
import Xv6.Files.Refs
import Xv6.Console
import Xv6.Fs.Names
import Xv6.Fs.Paths
import Xv6.Fs.Reclaim
import Xv6.Sh.Exact
import Xv6.Pipes.Stream
import Xv6.Pipes.Wakeups
import Xv6.Virtio.Protocol
import Xv6.Wait.Reports
import Xv6.Umalloc.Break
import Xv6.Strings
import Xv6.Grep.Lines
import Xv6.Registers
import Xv6.Sleeplock
import Xv6.Storage.Admission
