import I370Linux.Atomic
import I370Linux.BlockRange
import I370Linux.BottomHalf
import I370Linux.BuddyInvariant
import I370Linux.Checksum
import I370Linux.CopyOnWrite
import I370Linux.DeviceNumbers
import I370Linux.Ext2Balloc
import I370Linux.Ext2Bmap
import I370Linux.Ext2Inode
import I370Linux.FamilyRuns
import I370Linux.FaultRaces
import I370Linux.ForkMm
import I370Linux.FreePgtables
import I370Linux.InInterrupt
import I370Linux.IpFragGlue
import I370Linux.Irq
import I370Linux.KeyUnique
import I370Linux.MoveTables
import I370Linux.PipeStream
import I370Linux.PosixLocksExact
import I370Linux.Preemption
import I370Linux.ProcessGroups
import I370Linux.Raw3215
import I370Linux.RunSelection
import I370Linux.SemRange
import I370Linux.Semaphore
import I370Linux.ShmSignature
import I370Linux.SigDelivery
import I370Linux.SignalFrame
import I370Linux.SlabSections
import I370Linux.Strncpy
import I370Linux.SwapLedger
import I370Linux.SysvSem
import I370Linux.Terminal3215
import I370Linux.TimerWheelRefines
import I370Linux.UserAccess
import I370Linux.UserCount
import I370Linux.Vmalloc
