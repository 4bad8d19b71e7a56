import Ddprof.Lib.OrderedMap
import Ddprof.Lib.UnorderedMap
import Ddprof.Lib.Run
import Ddprof.Lib.Probing
import Ddprof.Lib.Circular
import Ddprof.Lib.Memory
import Ddprof.Lib.ByteReader
import Ddprof.Lib.Tiling
import Ddprof.Lib.BinaryHeap
import Ddprof.Lib.Numerals
import Ddprof.Lib.Scanner
import Ddprof.Dso.Basic
import Ddprof.Dso.ProcMaps
import Ddprof.Dso.Scan
import Ddprof.Dso.ProcLine
import Ddprof.Dso.Hdr
import Ddprof.Dso.Regions
import Ddprof.Dso.Invariants
import Ddprof.Dso.Lookup
import Ddprof.Dso.Backpopulation
import Ddprof.Dso.Search
import Ddprof.Dso.JitDump
import Ddprof.Symbols.MapInfo
import Ddprof.Unwind.Registers
import Ddprof.Unwind.Processes
import Ddprof.Perf.Record
import Ddprof.Perf.Decoding
import Ddprof.Perf.Values
import Ddprof.Perf.Encoding
import Ddprof.Perf.EncodedFields
import Ddprof.Perf.RoundTrip
import Ddprof.Perf.Time
import Ddprof.LiveAllocation.Basic
import Ddprof.LiveAllocation.Accounting
import Ddprof.LiveAllocation.Replay
import Ddprof.Symbols.Symbolization
import Ddprof.Symbols.StackLocations
import Ddprof.Symbols.StackMappings
import Ddprof.Symbols.SymbolMap
import Ddprof.Symbols.Reloading
import Ddprof.Symbols.RuntimeLookup
import Ddprof.Jit.Basic
import Ddprof.Jit.Frames
import Ddprof.Jit.Bounds
import Ddprof.Jit.RoundTrip
import Ddprof.Jit.Seek
import Ddprof.Symbols.SymbolizerCycles
import Ddprof.Symbols.LookupReads
import Ddprof.Unwind.Lookups
import Ddprof.Unwind.Frames
import Ddprof.Unwind.ElfBias
import Ddprof.Watcher.Basic
import Ddprof.EventParser.Lexer
import Ddprof.EventParser.Tokens
import Ddprof.EventParser.Parser
import Ddprof.EventParser.Concatenation
import Ddprof.Watcher.EventStrings
import Ddprof.Worker.Profile
import Ddprof.Worker.Basic
import Ddprof.Worker.Aggregation
import Ddprof.Worker.Export
import Ddprof.Worker.Calls
import Ddprof.Worker.Reports
import Ddprof.Worker.Reporting
import Ddprof.Worker.LostEvents
import Ddprof.Worker.Statistics
import Ddprof.AddressBitset.Basic
import Ddprof.AddressBitset.Calls
import Ddprof.AddressBitset.Ledger
import Ddprof.AddressBitset.Concurrent
import Ddprof.AddressBitset.Sequential
import Ddprof.AllocationTracker.Hooks
import Ddprof.AllocationTracker.Custody
import Ddprof.AllocationTracker.Agreement
import Ddprof.AllocationTracker.Tracker
import Ddprof.AllocationTracker.Failures
import Ddprof.AllocationTracker.Retry
import Ddprof.AllocationTracker.Sampling
import Ddprof.AllocationTracker.Losses
import Ddprof.AllocationTracker.AllocationEvent
import Ddprof.AllocationTracker.Reentry
import Ddprof.RingBuffer.Basic
import Ddprof.RingBuffer.Header
import Ddprof.RingBuffer.Layout
import Ddprof.RingBuffer.Samples
import Ddprof.RingBuffer.Producers
import Ddprof.RingBuffer.Mpsc
import Ddprof.RingBuffer.Wakeup
import Ddprof.RingBuffer.Perf
import Ddprof.RingBuffer.PerfReader
import Ddprof.RingBuffer.WrapCopy
import Ddprof.RingBuffer.Reservation
import Ddprof.RingBuffer.Discard
import Ddprof.MainLoop.Ring
import Ddprof.MainLoop.Basic
import Ddprof.MainLoop.Accounts
import Ddprof.MainLoop.Invariant
import Ddprof.MainLoop.Delivery
import Ddprof.MainLoop.Order
import Ddprof.MainLoop.Drain
import Ddprof.MainLoop.Reordering
import Ddprof.Overrides.Basic
import Ddprof.Overrides.Update
import Ddprof.Overrides.Histories
import Ddprof.Overrides.Restoring
import Ddprof.Elf.Hashes
import Ddprof.Elf.GnuHash
import Ddprof.Elf.SymbolCount
import Ddprof.Ipc.Send
import Ddprof.Dso.Ranges
import Ddprof.Demangler
