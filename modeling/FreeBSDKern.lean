import FreeBSDKern.Unit.Refine
import FreeBSDKern.Lockf.GraphRun
import FreeBSDKern.Swap.Hints
import FreeBSDKern.Rangelock.Safety
import FreeBSDKern.Ufs.Addressing
import FreeBSDKern.Ufs.Checkpath
import FreeBSDKern.Tty.Outq
import FreeBSDKern.Fd.Run
import FreeBSDKern.Fd.Allocn
import FreeBSDKern.Callout.Run
import FreeBSDKern.Reserv.Run
import FreeBSDKern.Msg.Target
import FreeBSDKern.Sockbuf.Run
import FreeBSDKern.VmMap.Run
import FreeBSDKern.VmMap.Find
import FreeBSDKern.VmMap.Stack
import FreeBSDKern.VmMap.WireAtomic
import FreeBSDKern.Radix.Ordered
import FreeBSDKern.Pipes.Direct
import FreeBSDKern.Radix.Recursion
import FreeBSDKern.Phys.Complete
import FreeBSDKern.Phys.ContigRun
import FreeBSDKern.Vmem.Complete
import FreeBSDKern.Rman.Undo
import FreeBSDKern.Sem.Compact
import FreeBSDKern.Sem.Pass
import FreeBSDKern.Tty.Lines
import FreeBSDKern.Dir.Ends
import FreeBSDKern.Dir.Findfree
import FreeBSDKern.Swap.Resize
import FreeBSDKern.Ffs.Nodealloc
import FreeBSDKern.Ffs.AllocRun
import FreeBSDKern.Mbufs.Split
import FreeBSDKern.Swap.Device
import FreeBSDKern.Unp.Parse
import FreeBSDKern.Unp.Gc
import FreeBSDKern.Clock.Fattime
import FreeBSDKern.Sockbuf.Sndptr
import FreeBSDKern.Reserv.Scans
import FreeBSDKern.Acl.Repeat
import FreeBSDKern.Log.Msgbuf
