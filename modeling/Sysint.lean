import Sysint.Lib.Block
import Sysint.Lib.Budget
import Sysint.Lib.Chain
import Sysint.Lib.Dlink
import Sysint.Lib.Dyadic
import Sysint.Lib.Machine
import Sysint.Lib.RedBlack
import Sysint.Lib.Tiling
import Sysint.Bitmap
import Sysint.Memory
import Sysint.Klib.Math
import Sysint.Klib.String
import Sysint.Paging.Buddy
import Sysint.Paging.BuddyBook
import Sysint.Paging.BuddyInv
import Sysint.Paging.BuddyRun
import Sysint.Paging.BuddyAccess
import Sysint.Paging.PageDir
import Sysint.UserPtr
import Sysint.Heap.Alloc
import Sysint.Heap.Layout
import Sysint.Heap.FreeList
import Sysint.Heap.AllocSpec
import Sysint.Heap.FreeSpec
import Sysint.Heap.Run
import Sysint.Rbtree.Model
import Sysint.Rbtree.Repr
import Sysint.Rbtree.Insert
import Sysint.Rbtree.Splice
import Sysint.Rbtree.Search
import Sysint.Rbtree.Erase
import Sysint.Rbtree.Run
import Sysint.Rbtree.Iterate
import Sysint.Process.Model
import Sysint.Process.Form
import Sysint.Process.Cases
import Sysint.Process.Queue
import Sysint.Process.Sane
import Sysint.Process.Checked
import Sysint.Process.Wake
import Sysint.Process.Sleep
import Sysint.Process.Charge
import Sysint.Process.Fpu
import Sysint.Process.Cfs
import Sysint.Process.Fair
import Sysint.Process.Pace
import Sysint.Process.Signal
import Sysint.Process.Reap
import Sysint.Process.Listed
import Sysint.Process.Pending
import Sysint.Process.Marker
import Sysint.Sync.Semaphore
import Sysint.Container.LinkedList
import Sysint.Container.Vector
import Sysint.Fs.FdTable
import Sysint.Fs.Vfs
import Sysint.Process.Switch
import Sysint.Syscall.Entry
import Sysint.Process.Elf
import Sysint.Process.ElfFlags
import Sysint.Process.Clone
import Sysint.Process.Condvar
import Sysint.Heap.Fit
import Sysint.Heap.Coalesce
import Sysint.Paging.Mapping
import Sysint.Paging.Handover
import Sysint.Paging.Kheap
import Sysint.Memory.Brk
import Sysint.Memory.Frames
import Sysint.Memory.Load
import Sysint.Memory.Remap
import Sysint.Paging.CloneSpec
import Sysint.Process.Isolation
import Sysint.Devices.Console
import Sysint.Devices.Keyboard
import Sysint.Devices.Ahci
import Sysint.Devices.Pci
import Sysint.Klib.Copies
