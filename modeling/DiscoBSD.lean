import DiscoBSD.Swap.Refusal
import DiscoBSD.Hsx.Expand
import DiscoBSD.Ufs.InodeCache
import DiscoBSD.Ufs.BioInv
import DiscoBSD.Exec.RoundTrip
import DiscoBSD.Clock.Owed
import DiscoBSD.Clock.Deadlines
import DiscoBSD.Flock.Exclusion
import DiscoBSD.Tty.System
import DiscoBSD.Pipe.System
import DiscoBSD.Sched.Runs
import DiscoBSD.Signal.Undone
import DiscoBSD.Signal.Kept
import DiscoBSD.Fdesc.System
import DiscoBSD.Klog.Fifo
import DiscoBSD.Text.Steps
import DiscoBSD.Tempdev.Arrays
import DiscoBSD.Lcdterm.Refines
import DiscoBSD.Lcdcons.Panel
import DiscoBSD.Usb.TxInv
import DiscoBSD.Usb.RxInv
import DiscoBSD.Usb.Ep0Inv
import DiscoBSD.Malloc.Run
import DiscoBSD.Bn.Integers
import DiscoBSD.Swapram.PoolFree
import DiscoBSD.Rmap.NextFit
import DiscoBSD.Fsutil.Made
import DiscoBSD.Flash.Neighbours
import DiscoBSD.Signal.Waiting
import DiscoBSD.Signal.Fault
import DiscoBSD.Ufs.Syncip
import DiscoBSD.Ufs.Lasting
import DiscoBSD.Ufs.IoUnit
import DiscoBSD.Dir.Calls
import DiscoBSD.Bn.LongDivision
import DiscoBSD.Vis.RoundTrip
import DiscoBSD.Calc.Base64Exact
import DiscoBSD.Bn.Printing
import DiscoBSD.Qsort.Sorted
import DiscoBSD.Ctime.Mktime
import DiscoBSD.Modes.Exact
import DiscoBSD.Exec.Length
import DiscoBSD.Sd.Physio
import DiscoBSD.Strtol.Exact
import DiscoBSD.Fork.Pid
import DiscoBSD.As.Literals
