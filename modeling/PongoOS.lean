import PongoOS.Support.Words
import PongoOS.Support.Outcome
import PongoOS.Support.Trace
import PongoOS.Support.Run
import PongoOS.Support.DoublyLinked
import PongoOS.Mm.State
import PongoOS.Mm.PageAllocator
import PongoOS.Mm.FreeList
import PongoOS.Mm.AllocatorSteps
import PongoOS.Mm.Allocation
import PongoOS.Mm.Boot
import PongoOS.Mm.AllocatorRuns
import PongoOS.Mm.Wiring
import PongoOS.Support.RadixTable
import PongoOS.Mm.TranslationTable
import PongoOS.Mm.MapRange
import PongoOS.Mm.MapSteps
import PongoOS.Mm.EarlyTables
import PongoOS.Mm.MapRule
import PongoOS.Mm.MapSpec
import PongoOS.Mm.MapTranslation
import PongoOS.Mm.MapExtension
import PongoOS.Mm.MapRuns
import PongoOS.Mm.VmSpace
import PongoOS.Support.Ring
import PongoOS.Support.Holders
import PongoOS.Support.RefForest
import PongoOS.Support.SinglyLinked
import PongoOS.Support.Pool
import PongoOS.Mm.SpaceRefs
import PongoOS.Mm.TteWalk
import PongoOS.Mm.ManagedRange
import PongoOS.Task.State
import PongoOS.Task.Sched
import PongoOS.Task.Lifetime
import PongoOS.Task.Ring
import PongoOS.Task.Events
import PongoOS.Task.SchedRuns
import PongoOS.Task.RoundRobin
import PongoOS.Task.Ownership
import PongoOS.Task.OwnershipSteps
import PongoOS.Task.Creation
import PongoOS.Task.Lifetimes
import PongoOS.Task.SpaceOwners
import PongoOS.Task.Vfs
import PongoOS.Task.LockWord
import PongoOS.Task.Locks
import PongoOS.Io.Stdin
import PongoOS.Io.Stdout
import PongoOS.Io.UartIrq
import PongoOS.Dynamic.Exports
import PongoOS.Support.ByteMemory
import PongoOS.Support.OrderedForest
import PongoOS.Support.Visit
import PongoOS.Support.Overlay
import PongoOS.Support.MachO
import PongoOS.Tools.Vmacho
import PongoOS.Tools.VmachoImage
import PongoOS.Mm.KernelPages
import PongoOS.Dynamic.Modload
import PongoOS.Dynamic.ModloadSegments
import PongoOS.Dynamic.ModloadLink
import PongoOS.Dynamic.ModloadImage
import PongoOS.Dynamic.ModloadRelocated
import PongoOS.Dynamic.ModloadFailure
import PongoOS.Dynamic.ModloadBounds
import PongoOS.Dtree.Parser
import PongoOS.Dtree.Checker
import PongoOS.Dtree.Lookup
import PongoOS.Fdt.Parser
import PongoOS.Fdt.Walk
import PongoOS.Fdt.Lookup
import PongoOS.Usb.Endpoint
import PongoOS.Usb.Control
import PongoOS.Usb.Frame
import PongoOS.Usb.Runs
import PongoOS.Usb.Upload
import PongoOS.Usb.UploadSteps
import PongoOS.Usb.UploadRuns
import PongoOS.Usb.UploadSafety
import PongoOS.Usb.DataIn
import PongoOS.Usb.Ep1In
import PongoOS.Usb.BulkOut
import PongoOS.Support.Sorting
import PongoOS.Shell.Command
import PongoOS.Shell.CommandTable
import PongoOS.Shell.CommandLine
import PongoOS.Shell.Tokens
import PongoOS.Xnu.Patchfinder
import PongoOS.Xnu.Interpreter
import PongoOS.Mm.PageMapping
import PongoOS.Mm.Deallocation
import PongoOS.Mm.Reservation
import PongoOS.Mm.PhysicalRange
import PongoOS.Mm.DeviceSpace
import PongoOS.Mm.ContiguousAllocation
import PongoOS.Mm.ContiguousRelease
import PongoOS.Mm.SpaceIds
import PongoOS.Mm.BootMapping
import PongoOS.Usb.UploadRequest
import PongoOS.Io.LineEditor
import PongoOS.Io.StdoutWindow
import PongoOS.Usb.Ktrw
import PongoOS.Support.Nesting
import PongoOS.Xnu.Prelink
import PongoOS.Xnu.Padding
import PongoOS.Xnu.JitInstructions
import PongoOS.Xnu.Emitter
import PongoOS.Xnu.Entropy
import PongoOS.Xnu.JitSize
import PongoOS.Dtree.MemoryMap
import PongoOS.Tools.VmachoLoops
import PongoOS.Tools.VmachoBounds
import PongoOS.Mm.EntryBounds
import PongoOS.Support.Bump
import PongoOS.Mm.BumpAllocation
import PongoOS.Drivers.AesCommand
import PongoOS.Mm.InitialPartition
import PongoOS.Linux.Staging
import PongoOS.Drivers.Framebuffer
import PongoOS.Support.A64
import PongoOS.Xnu.JitEncoders
import PongoOS.Linux.DtreePack
import PongoOS.Drivers.FwCfg
import PongoOS.Der.Encode
import PongoOS.Der.Decode
import PongoOS.Der.Canonical
import PongoOS.Der.Grammar
import PongoOS.Der.RoundTrip
import PongoOS.Img4.RestoreInfo
import PongoOS.Img4.Container
import PongoOS.Mm.JitMemory
import PongoOS.Task.KernelStacks
import PongoOS.Support.RangeCoder
import PongoOS.Lzma.Decoder
import PongoOS.Lzma.Symbols
import PongoOS.Lzma.Dictionary
import PongoOS.Lzma.Bounds
import PongoOS.Lzma.Stream
import PongoOS.Lzma.Determined
import PongoOS.Lzma.Decompress
