import Sol26.Callo.Suspend
import Sol26.Diff.Script
import Sol26.Disk.Elevator
import Sol26.Dnlc.Purge
import Sol26.Fd.Dup
import Sol26.Flock.Range
import Sol26.Inherit.Deadlock
import Sol26.Ip.CksumExact
import Sol26.Ip.Length
import Sol26.Ip.RoundTrip
import Sol26.Kmem.Perm
import Sol26.Mp.Pow
import Sol26.Msg.Sleepers
import Sol26.Pack.Output
import Sol26.Page.Locks
import Sol26.Qsort.Sorted
import Sol26.Rmap.Conservation
import Sol26.Rmap.Get
import Sol26.Rmap.Slots
import Sol26.Rpc.Returns
import Sol26.Sem.Stranded
import Sol26.Share.Reservations
import Sol26.Swap.Devices
import Sol26.Swap.Reserve
import Sol26.Tcp.Stream
import Sol26.Time.Fields
import Sol26.Timers.Hrtime
import Sol26.Timers.Itimer
import Sol26.Timers.Tod
import Sol26.Tmpfs.Reserved
import Sol26.Tmpfs.Scan
import Sol26.Tmpfs.Stored
import Sol26.Tsort.Order
import Sol26.Ufs.Free
import Sol26.Ufs.Quota
import Sol26.Unpack.Expand
import Sol26.Vj.Ring
import Sol26.Xdr.Array
import Sol26.Xdr.Boundaries
