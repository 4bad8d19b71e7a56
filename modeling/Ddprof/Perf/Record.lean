import Ddprof.RingBuffer.Perf

/-!
The layout of perf records: their types, the words they hold, and where `hdr_time` finds the
time of a record.
-/

namespace Ddprof

open Circular (Byte)

inductive RecordType where
  | mmap | lost | comm | exit | fork | sample | mmap2
  | deallocation | clearLiveAllocation | allocationTrackerState
  /-- `PERF_RECORD_THROTTLE`, `PERF_RECORD_UNTHROTTLE` and all others. -/
  | other
  deriving DecidableEq, Repr

def RecordType.decode : ℕ → RecordType
  | 1 => mmap
  | 2 => lost
  | 3 => comm
  | 4 => exit
  | 7 => fork
  | 9 => sample
  | 10 => mmap2
  | 1000 => deallocation
  | 1001 => clearLiveAllocation
  | 1002 => allocationTrackerState
  | _ => other

/-! The bits of `perf_event_attr::sample_type` that say what a record holds. -/

namespace PerfSample

def ip : ℕ := 2 ^ 0
def tid : ℕ := 2 ^ 1
def time : ℕ := 2 ^ 2
def addr : ℕ := 2 ^ 3
def read : ℕ := 2 ^ 4
def callchain : ℕ := 2 ^ 5
def id : ℕ := 2 ^ 6
def cpu : ℕ := 2 ^ 7
def period : ℕ := 2 ^ 8
def streamId : ℕ := 2 ^ 9
def raw : ℕ := 2 ^ 10
def regsUser : ℕ := 2 ^ 12
def stackUser : ℕ := 2 ^ 13
def identifier : ℕ := 2 ^ 16

end PerfSample

def popcount (x : ℕ) : ℕ := (List.range 64).countP x.testBit

/-- The word at an offset of a record; beyond its end it is zero. -/
def wordAt (bytes : List Byte) (offset : ℕ) : ℕ := Circular.leWord ((bytes.drop offset).take 8)

def hdrTime (hdr : List Byte) (mask : ℕ) : ℕ :=
  if mask &&& PerfSample.time = 0 then 0
  else
    match RecordType.decode (Circular.leWord (hdr.take 4)) with
    | .sample =>
      let nbFieldsBefore :=
        popcount (mask &&& (PerfSample.identifier ||| PerfSample.ip ||| PerfSample.tid))
      wordAt hdr (perfHeaderSize + 8 * nbFieldsBefore)
    | .mmap | .mmap2 | .comm | .exit | .fork | .lost =>
      let nbFieldsAfter := popcount (mask &&& (PerfSample.time ||| PerfSample.id |||
        PerfSample.streamId ||| PerfSample.cpu ||| PerfSample.identifier))
      wordAt hdr (headerSize hdr - 8 * nbFieldsAfter)
    -- the time follows the pid and the tid in `sample_id`
    | .deallocation | .clearLiveAllocation | .allocationTrackerState =>
      wordAt hdr (perfHeaderSize + 8)
    | .other => 0

/-- `perf_clock_time_point_from_timestamp`, in nanoseconds of 64 bits with a sign. -/
def perfClockTimePoint (timestamp : ℕ) : ℤ := (BitVec.ofNat 64 timestamp).toInt

end Ddprof
