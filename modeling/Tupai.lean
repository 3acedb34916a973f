import Tupai.Basic
import Tupai.Lib.Segments
import Tupai.Lib.Transition
import Tupai.Lib.Nesting
import Tupai.Lib.Probe
import Tupai.Lib.Ring
import Tupai.Lib.Linkage
import Tupai.Lib.PathTree
import Tupai.Pool
import Tupai.Heap
import Tupai.FirstFit
import Tupai.Frees
import Tupai.Reclaim
import Tupai.Construct
import Tupai.Layout
import Tupai.Accesses
import Tupai.Hwlock
import Tupai.Hashtable
import Tupai.TableMap
import Tupai.Queue
import Tupai.Str
import Tupai.Path
import Tupai.Process
import Tupai.Scheduler
import Tupai.Roster
import Tupai.Dispatch
import Tupai.Spawn
import Tupai.Vfs
import Tupai.Kernel
import Tupai.Tar
import Tupai.Drivers
import Tupai.Descriptors
import Tupai.Stdio
import Tupai.Leftover
import Tupai.Initrd
import Tupai.Mount
import Tupai.Reading
import Tupai.Archive
import Tupai.Chunks
import Tupai.Fifo
import Tupai.Lib.Walk
import Tupai.Lookup
import Tupai.Growth
import Tupai.Mounting
import Tupai.Nameless
import Tupai.Switch
import Tupai.Stacks
import Tupai.Admission
import Tupai.Creation
import Tupai.Arch
import Tupai.Lib.Copies
import Tupai.Multiboot
import Tupai.Relocation
import Tupai.Listing
import Tupai.Pipe
import Tupai.Transfers
import Tupai.Delivery
import Tupai.Ustar
import Tupai.Lib.Chase
import Tupai.Images
import Tupai.Names
import Tupai.Lib.Rota
import Tupai.Turns
import Tupai.Exhaustion
import Tupai.Masking
import Tupai.Yield
import Tupai.Lib.TestAndSet
import Tupai.Console
import Tupai.Conv
import Tupai.Rendering
import Tupai.Rejection
import Tupai.Lib.Loop
import Tupai.Textmode
import Tupai.Screen
import Tupai.Cursor
import Tupai.Selection
import Tupai.Syscall
import Tupai.Mutex
import Tupai.Lib.Owned
import Tupai.Vector
import Tupai.Ownership
import Tupai.Resizing
import Tupai.Vectors
import Tupai.Attributes
import Tupai.Cmos
import Tupai.Clock
import Tupai.Tags
import Tupai.Cache
import Tupai.Shell
import Tupai.Readline
import Tupai.Serial
import Tupai.Relock
import Tupai.Baud
import Tupai.VectorStack
import Tupai.Lib.Machine
import Tupai.Isr
import Tupai.Exception
import Tupai.Lib.Traversal
import Tupai.Display
import Tupai.Overrun
import Tupai.Equality
import Tupai.Lib.LittleEndian
import Tupai.Lib.PageTable
import Tupai.Paging
import Tupai.Lib.Blocks
import Tupai.Kmem
import Tupai.PoolDisplay
import Tupai.Pic
import Tupai.Idt
import Tupai.Rows
import Tupai.Terminal
import Tupai.Lib.Settling
import Tupai.Resting
import Tupai.Mounts
import Tupai.Cat
import Tupai.Booting
import Tupai.Startup
import Tupai.Fmt
import Tupai.Proclist
import Tupai.SystemTime
import Tupai.Lib.Frames
import Tupai.Contexts
