import Octiron.Lib.Word
import Octiron.Lib.ByteMemory
import Octiron.Lib.Rounding
import Octiron.Lib.ByteOrder
import Octiron.Lib.Elements
import Octiron.Lib.Tables
import Octiron.Lib.Span
import Octiron.Lib.FirstFit
import Octiron.Lib.RadixTree
import Octiron.Lib.Runs
import Octiron.Lib.ThreeWay
import Octiron.Lib.Offers
import Octiron.Lib.Positional
import Octiron.Lib.Decimal
import Octiron.Lib.Hexadecimal
import Octiron.Lib.LinkedList
import Octiron.Lib.Ownership
import Octiron.Lib.Cursors
import Octiron.Lib.Lockstep
import Octiron.Lib.Listing
import Octiron.Exec
import Octiron.Types.Number
import Octiron.Types.AlignmentLaws
import Octiron.Types.Error
import Octiron.Types.ErrorStack
import Octiron.Memory
import Octiron.Types.BigEndian
import Octiron.Types.Views
import Octiron.Types.Slicing
import Octiron.Types.ViewOrder
import Octiron.Types.Stack
import Octiron.Limine.PlatformInfo
import Octiron.Pmm.Client
import Octiron.Types.RawStack
import Octiron.Types.StackContents
import Octiron.Types.StackOwnership
import Octiron.Fmt.Printer
import Octiron.Fmt.Numerals
import Octiron.Fmt.Hexadecimal
import Octiron.Fmt.Console
import Octiron.Allocators.Slab
import Octiron.Allocators.SlabGrowth
import Octiron.Allocators.SlabCarving
import Octiron.Allocators.SlabRegions
import Octiron.Allocators.SlabRuns
import Octiron.Allocators.Bump
import Octiron.Allocators.BumpRuns
import Octiron.Allocators.BumpPlacement
import Octiron.Allocators.BumpRegions
import Octiron.Allocators.BumpMemory
import Octiron.Allocators.BumpFailures
import Octiron.Pmm.Model
import Octiron.Pmm.Descriptors
import Octiron.Pmm.Runs
import Octiron.Pmm.Split
import Octiron.Pmm.Invariant
import Octiron.Pmm.AllocAligned
import Octiron.Pmm.AddRegion
import Octiron.Pmm.Isolation
import Octiron.Pmm.Conservation
import Octiron.Pmm.Calls
import Octiron.Pmm.Admission
import Octiron.Pmm.Overlap
import Octiron.Pmm.PageRequests
import Octiron.Pmm.Clients
import Octiron.Pmm.Managed
import Octiron.Pmm.Replay
import Octiron.Pmm.Worn
import Octiron.Pmm.WornRuns
import Octiron.Pmm.DescriptorCount
import Octiron.Pmm.LastDescriptor
import Octiron.Pmm.RequestSize
import Octiron.Pmm.Counters
import Octiron.Pmm.FirstFit
import Octiron.Riscv.Sv39
import Octiron.Riscv.PageTables
import Octiron.Riscv.PageMap
import Octiron.Riscv.Mapping
import Octiron.Riscv.Translate
import Octiron.Riscv.Totality
import Octiron.Riscv.Superpages
import Octiron.Riscv.Alignment
import Octiron.Riscv.Frames
import Octiron.Riscv.AddressSpaces
import Octiron.Riscv.SpaceRuns
import Octiron.KernelEntry
import Octiron.KernelBoot
import Octiron.DeviceTree.Model
import Octiron.DeviceTree.Reservations
import Octiron.DeviceTree.Tokens
import Octiron.DeviceTree.Steps
import Octiron.DeviceTree.Balance
import Octiron.DeviceTree.Tree
import Octiron.DeviceTree.Build
import Octiron.DeviceTree.Relocation
import Octiron.DeviceTree.Decoding
import Octiron.DeviceTree.Rewrite
import Octiron.DeviceTree.InMemory
import Octiron.DeviceTree.RecordFields
import Octiron.DeviceTree.Content
import Octiron.DeviceTree.Rows
import Octiron.DeviceTree.Strings
import Octiron.DeviceTree.Decoded
import Octiron.DeviceTree.Locality
import Octiron.DeviceTree.Requests
import Octiron.DeviceTree.ArrayStores
import Octiron.DeviceTree.Blocks
import Octiron.DeviceTree.RowTurns
import Octiron.DeviceTree.Served
import Octiron.DeviceTree.Reordering
import Octiron.DeviceTree.CellCounts
import Octiron.DeviceTree.DeadArms
import Octiron.DeviceTree.Arrays
import Octiron.DeviceTree.StringStores
import Octiron.DeviceTree.TreeRecords
import Octiron.DeviceTree.Turns
import Octiron.DeviceTree.RegInMemory
import Octiron.DeviceTree.RangesInMemory
import Octiron.DeviceTree.PassTurns
import Octiron.DeviceTree.LapsInMemory
import Octiron.DeviceTree.PassInMemory
import Octiron.DeviceTree.LocatedInMemory
import Octiron.DeviceTree.ContentInMemory
import Octiron.DeviceTree.LocalityInMemory
import Octiron.DeviceTree.RangeArrays
import Octiron.DeviceTree.CompatibleRecords
import Octiron.DeviceTree.CountsInMemory
import Octiron.DeviceTree.Splitting
import Octiron.DeviceTree.StatusValues
import Octiron.DeviceTree.Records
import Octiron.DeviceTree.Parse
import Octiron.DeviceTree.ParseErrors
import Octiron.DeviceTree.Listing
import Octiron.DeviceTree.ReadBack
import Octiron.Allocators.ArenaProgress
