import Xv6.Bio.Recovery
import Xv6.Blocks.Refine
import Xv6.Buddy.Exhaustion
import Xv6.Buddy.InitFree
import Xv6.Buddy.Pointers
import Xv6.Console.Active
import Xv6.Console.Lines
import Xv6.Exec.Success
import Xv6.Fs.LinkRuns
import Xv6.Fs.ReadWrite
import Xv6.Grep.Lines
import Xv6.Log.Atomic
import Xv6.Pipe.Wakeup
import Xv6.Sched.Policy
import Xv6.Sched.Wait
import Xv6.Sh.Exact
import Xv6.Sleeplock.Exclusion
import Xv6.Stdio.Output
import Xv6.Strings.Join
import Xv6.Umalloc.Requests
import Xv6.Virtio.Discipline
import Xv6.Sched.Lives
