import BabOs.Boot.DiskLoad
import BabOs.Boot.Entry
import BabOs.Boot.PageTables
import BabOs.Boot.Stages
import BabOs.Boot.Transfers
import BabOs.Common.Compare
import BabOs.Common.Itoa
import BabOs.Initrd.Image
import BabOs.Initrd.Lookup
import BabOs.Initrd.Model
import BabOs.Initrd.Mount
import BabOs.Initrd.Nodes
import BabOs.Initrd.Reads
import BabOs.Initrd.RoundTrip
import BabOs.Irq.Frames
import BabOs.Irq.Gates
import BabOs.Irq.Model
import BabOs.Irq.Runs
import BabOs.Irq.Vectors
import BabOs.Keyboard.Model
import BabOs.Keyboard.Runs
import BabOs.Keyboard.Translation
import BabOs.Kheap.Aligned
import BabOs.Kheap.Allocation
import BabOs.Kheap.FirstFit
import BabOs.Kheap.Footprint
import BabOs.Kheap.Gifts
import BabOs.Kheap.Guarded
import BabOs.Kheap.Headers
import BabOs.Kheap.Loans
import BabOs.Kheap.Model
import BabOs.Kheap.Operations
import BabOs.Kheap.Rejects
import BabOs.Kheap.Requests
import BabOs.Kheap.Runs
import BabOs.Kheap.Undo
import BabOs.Library.Blocks
import BabOs.Library.Chain
import BabOs.Library.Copy
import BabOs.Library.Dyadic
import BabOs.Library.Fifo
import BabOs.Library.Fuel
import BabOs.Library.Logs
import BabOs.Library.Memory
import BabOs.Library.Numerals
import BabOs.Library.Ring
import BabOs.Library.Stack
import BabOs.Library.Strings
import BabOs.Main.Boot
import BabOs.Main.Exchange
import BabOs.Main.KeyQueue
import BabOs.Main.KeyWaits
import BabOs.Main.KeyboardMonitor
import BabOs.Main.Model
import BabOs.Main.ProducerConsumer
import BabOs.Main.Tasks
import BabOs.Main.Waiting
import BabOs.Mm.Backing
import BabOs.Mm.BringUp
import BabOs.Mm.Frames
import BabOs.Mm.HeapPages
import BabOs.Mm.LowFrames
import BabOs.Mm.LowTables
import BabOs.Mm.Preserved
import BabOs.Mm.Switch
import BabOs.Pmm.Buddy
import BabOs.Pmm.Canonical
import BabOs.Pmm.Completeness
import BabOs.Pmm.FreeLists
import BabOs.Pmm.Model
import BabOs.Pmm.Regions
import BabOs.Pmm.Runs
import BabOs.Sched.Model
import BabOs.Sched.RoundRobin
import BabOs.Sched.Schedule
import BabOs.Sched.Waiting
import BabOs.Shell.Boot
import BabOs.Shell.Layout
import BabOs.Shell.Listing
import BabOs.Shell.Model
import BabOs.Shell.Output
import BabOs.Shell.Reading
import BabOs.Shell.Runs
import BabOs.Shell.Session
import BabOs.Shell.Startup
import BabOs.Sync.Alert
import BabOs.Sync.Exclusion
import BabOs.Sync.Exec
import BabOs.Sync.Frames
import BabOs.Sync.Membership
import BabOs.Sync.Model
import BabOs.Sync.Queues
import BabOs.Sync.Records
import BabOs.Sync.Regions
import BabOs.Sync.SelfWait
import BabOs.Sync.Signals
import BabOs.Sync.Sleeping
import BabOs.Sync.Sound
import BabOs.Sync.States
import BabOs.Sync.Suspension
import BabOs.Sync.WaitQueues
import BabOs.Sync.Waking
import BabOs.Terminal.Agreement
import BabOs.Terminal.Bounds
import BabOs.Terminal.Expansion
import BabOs.Terminal.Formats
import BabOs.Terminal.Lines
import BabOs.Terminal.Model
import BabOs.Terminal.Pixels
import BabOs.Terminal.Printf
import BabOs.Terminal.Safety
import BabOs.Vmm.Mapping
import BabOs.Vmm.Model
import BabOs.Vmm.Rights
