import MmExper.Lib.Ring
import MmExper.Lib.Tiling
import MmExper.Lib.Words
import MmExper.Lib.Align
import MmExper.Lib.BitScan
import MmExper.Lib.Bits
import MmExper.Lib.Masks
import MmExper.Lib.Scan
import MmExper.Lib.Numerals
import MmExper.Lib.Runs
import MmExper.Lib.CharDevice
import MmExper.Lib.Joining
import MmExper.Lib.Shuffle
import MmExper.Lib.Interleaving
import MmExper.Lib.Settled
import MmExper.Bitwise
import MmExper.Musl.State
import MmExper.Musl.Malloc
import MmExper.Musl.FreeList
import MmExper.Musl.Bins
import MmExper.Musl.Heap
import MmExper.Musl.Repr
import MmExper.Musl.Steps
import MmExper.Musl.Grow
import MmExper.Musl.Free
import MmExper.Musl.Search
import MmExper.Musl.BitScan
import MmExper.Musl.Alloc
import MmExper.Musl.Run
import MmExper.Musl.Invariant
import MmExper.Musl.Contract
import MmExper.Musl.DoubleFree
import MmExper.Musl.Break
import MmExper.Musl.SizeClass
import MmExper.Musl.FastPath
import MmExper.Musl.PageReclaim
import MmExper.Musl.Effects
import MmExper.Musl.Accounting
import MmExper.Musl.RoundTrip
import MmExper.Musl.Arena
import MmExper.Musl.Refines
import MmExper.Musl.Shape
import MmExper.Musl.Dump
import MmExper.FaultAround.Compute
import MmExper.FaultAround.Window
import MmExper.FaultAround.Correct
import MmExper.FaultAround.Fuzz
import MmExper.FaultAround.Threads
import MmExper.FaultAround.Overlap
import MmExper.Pagestat.Address
import MmExper.Pagestat.Snapshot
import MmExper.Pagestat.Print
import MmExper.Pagestat.Entry
import MmExper.Pagestat.Diff
import MmExper.Pagestat.History
import MmExper.Pagestat.Watch
import MmExper.Pagestat.Listing
import MmExper.Pagestat.Abbreviation
import MmExper.Pagestat.Smaps
import MmExper.Pagestat.Lines
import MmExper.Pagestat.Complete
import MmExper.Pagestat.Fields
import MmExper.Exper.Refcount
import MmExper.Mad.Gup
import MmExper.ReadPageflags.Maps
import MmExper.ReadPageflags.Header
import MmExper.ReadPageflags.Lookup
import MmExper.ReadPageflags.Flags
import MmExper.ReadPageflags.Reports
import MmExper.ReadPageflags.Monitor
import MmExper.Random.PagemapTour
import MmExper.Random.Scan
import MmExper.Random.Procmap
import MmExper.Tools.VmFlags
import MmExper.Kernel.Handlers
import MmExper.Kernel.OpenFile
import MmExper.Kernel.OwnText
import MmExper.Kernel.Answers
import MmExper.Kernel.Xarray
import MmExper.Kernel.Fragment
import MmExper.Mad.Client
import MmExper.Pagestat.Report
