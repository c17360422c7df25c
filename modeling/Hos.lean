import Hos.Lib.Chain
import Hos.Memory.Kheap.Run
import Hos.Fs.Ext2.WellFormed
import Hos.Fs.Ext2.Commit
import Hos.Fs.Ext2.AllocateInode
import Hos.Fs.Ext2.File
import Hos.Fs.Ext2.InUse
import Hos.Fs.Ext2.BlockMap
import Hos.Fs.Ext2.FileMap
import Hos.Fs.Ext2.Data
import Hos.Fs.Ext2.MapGrowth
import Hos.Fs.Ext2.ReadAfterWrite
import Hos.Lib.WordBitmap
import Hos.Memory.Pmm.Basic
import Hos.Memory.Pmm.Run
import Hos.Memory.Pmm.Init
import Hos.Memory.Vmm.Accounting
import Hos.Drivers.Ata.Basic
import Hos.Drivers.Ata.Transfer
import Hos.Memory.Kheap.Coalesce
import Hos.Drivers.Ata.Read
import Hos.Drivers.Ata.Registers
import Hos.Drivers.Ata.Write
import Hos.Lib.Run
import Hos.Lib.Ledger
import Hos.Lib.Ring
import Hos.Process.Signal
import Hos.Process.Scheduler
import Hos.Process.Run
import Hos.Process.Table
import Hos.Process.Tree
import Hos.Process.View
import Hos.Process.Family
import Hos.Process.RunQueue
import Hos.Process.Mail
import Hos.Process.Pending
import Hos.Process.Unblockable
import Hos.Process.Dispatch
import Hos.Process.RoundRobin
import Hos.Process.Wait
import Hos.Process.Handler
import Hos.Process.Delivery
import Hos.Process.Termination
import Hos.Containers.ListHead
import Hos.Containers.List
import Hos.Containers.ListCalls
import Hos.Containers.Hashmap
import Hos.Containers.HashmapCalls
import Hos.Lib.Frames
import Hos.Memory.Vmm.Space
import Hos.Memory.Vmm.Range
import Hos.Memory.Vmm.Inverse
import Hos.Memory.Mmu.Basic
import Hos.Memory.Mmu.Area
import Hos.Memory.Mmu.Image
import Hos.Memory.Mmu.Directory
import Hos.Lib.Ownership
import Hos.Memory.Mmu.Destroy
import Hos.Memory.Mmu.Clone
import Hos.Fs.Libgen
import Hos.Fs.Procfs.Basic
import Hos.Fs.Procfs.Store
import Hos.Containers.RingBuffer
import Hos.Fs.ProcRead
import Hos.Fs.Procv
import Hos.Fs.Vfs
import Hos.Process.Running
import Hos.Timer.Wheel
import Hos.Timer.Itimer
import Hos.Timer.Ownership
import Hos.Memory.Pmm.Search
import Hos.Memory.Kheap.BestFit
import Hos.Memory.Kheap.Strdup
import Hos.Memory.Kheap.Align
import Hos.Memory.Kheap.Calls
import Hos.Memory.Kheap.Sizes
import Hos.Memory.Kheap.Aligned
import Hos.Memory.Vmm.Map
import Hos.Memory.Vmm.Unmap
import Hos.Memory.Pmm.Bounds
import Hos.Memory.Vmm.Init
import Hos.Memory.Vmm.Fresh
import Hos.Memory.Mmu.Backing
import Hos.Fs.Ext2.InodeTable
import Hos.Memory.Mmu.Vaddr
import Hos.Fs.Ext2.Indices
import Hos.Fs.Ext2.ReadBounds
import Hos.Fs.Ext2.Room
import Hos.Fs.Ext2.StoredSize
import Hos.Process.Args
import Hos.Process.Execve
import Hos.Process.LoadExecutable
