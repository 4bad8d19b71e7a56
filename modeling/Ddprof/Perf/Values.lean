import Ddprof.Lib.Memory
import Ddprof.Perf.Decoding
import Ddprof.Watcher.Basic

/-!
`perf_value_from_sample`: the value of a sample.

A watcher takes the value from the period of the sample, from a register or from the raw data of a
tracepoint, at an offset and with a width that the user gives. The function compares the end of
the access with the size of the raw data, but the wrong way round: it gives up exactly when the
access stays inside of the data.
-/

namespace Ddprof

open Circular (Byte leWord)
open Memory (load)

structure Fetched where
  value : ℕ
  reads : List ℕ := []
  deriving DecidableEq, Repr

/-- An integer of `n` bytes in memory. -/
def fetch (mem : ℕ → Byte) (p n : ℕ) : Fetched where
  value := leWord (load mem p n)
  reads := (List.range n).map (p + ·)

/-- Built without assertions. The offset and the size are bytes, so their sum does not overflow. -/
def perfValueFromSample (mem : ℕ → Byte) (watcher : PerfWatcher) (sample : PerfEventSample) :
    Fetched :=
  match watcher.valueSource with
  | .raw =>
    if perfSampleRaw &&& watcher.sampleType ≠ 0 then
      if watcher.rawSz + watcher.rawOff ≤ sample.sizeRaw then ⟨0, []⟩
      else
        match watcher.rawSz with
        | 1 => fetch mem (sample.dataRaw + watcher.rawOff) 1
        | 2 => fetch mem (sample.dataRaw + watcher.rawOff) 2
        | 4 => fetch mem (sample.dataRaw + watcher.rawOff) 4
        | 8 => fetch mem (sample.dataRaw + watcher.rawOff) 8
        | _ => ⟨0, []⟩
    else ⟨0, []⟩
  | .register => fetch mem (sample.regs + 8 * watcher.regno) 8
  | .sample => ⟨sample.period, []⟩

/-- A watcher of a raw value of a supported width. -/
structure PerfWatcher.IsRaw (watcher : PerfWatcher) : Prop where
  source : watcher.valueSource = .raw
  announced : perfSampleRaw &&& watcher.sampleType ≠ 0
  width : watcher.rawSz ∈ [1, 2, 4, 8]

/-- The integer of the raw data at the offset of the watcher, or 0 if the data ends before it
does, read without leaving the data. -/
structure ReadsRaw (mem : ℕ → Byte) (watcher : PerfWatcher) (sample : PerfEventSample)
    (r : Fetched) : Prop where
  value : r.value = if watcher.rawOff + watcher.rawSz ≤ sample.sizeRaw then
    leWord (load mem (sample.dataRaw + watcher.rawOff) watcher.rawSz) else 0
  inside : ∀ a ∈ r.reads, sample.dataRaw ≤ a ∧ a < sample.dataRaw + sample.sizeRaw

variable {mem : ℕ → Byte} {watcher : PerfWatcher} {sample : PerfEventSample}

theorem PerfWatcher.IsRaw.rawSz_pos (hraw : watcher.IsRaw) : 0 < watcher.rawSz := by
  have hwidth := hraw.width
  simp only [List.mem_cons, List.not_mem_nil, or_false] at hwidth
  omega

theorem perfValueFromSample_of_fits (hraw : watcher.IsRaw)
    (hfits : watcher.rawOff + watcher.rawSz ≤ sample.sizeRaw) :
    perfValueFromSample mem watcher sample = ⟨0, []⟩ := by
  rw [Nat.add_comm] at hfits
  simp only [perfValueFromSample, hraw.source, if_pos hraw.announced, if_pos hfits]

theorem perfValueFromSample_of_not_fits (hraw : watcher.IsRaw)
    (hfits : ¬watcher.rawOff + watcher.rawSz ≤ sample.sizeRaw) :
    perfValueFromSample mem watcher sample =
      fetch mem (sample.dataRaw + watcher.rawOff) watcher.rawSz := by
  rw [Nat.add_comm] at hfits
  have hwidth := hraw.width
  simp only [List.mem_cons, List.not_mem_nil, or_false] at hwidth
  simp only [perfValueFromSample, hraw.source, if_pos hraw.announced, if_neg hfits]
  rcases hwidth with h | h | h | h <;> simp only [h]

/-- The last byte of an access is among those that are read. -/
theorem last_mem_fetch_reads {p n : ℕ} (hn : 0 < n) : p + (n - 1) ∈ (fetch mem p n).reads :=
  List.mem_map.mpr ⟨n - 1, List.mem_range.mpr (by omega), rfl⟩

/-- The value is right and read inside of the raw data exactly if the data reaches to the end of
the access and is 0 there. -/
theorem readsRaw_perfValueFromSample_iff (mem : ℕ → Byte) (watcher : PerfWatcher)
    (sample : PerfEventSample) (hraw : watcher.IsRaw) :
    ReadsRaw mem watcher sample (perfValueFromSample mem watcher sample) ↔
      watcher.rawOff + watcher.rawSz ≤ sample.sizeRaw ∧
        ∀ i < watcher.rawSz, mem (sample.dataRaw + watcher.rawOff + i) = 0 := by
  by_cases hfits : watcher.rawOff + watcher.rawSz ≤ sample.sizeRaw
  · have hzero : leWord (load mem (sample.dataRaw + watcher.rawOff) watcher.rawSz) = 0 ↔
        ∀ i < watcher.rawSz, mem (sample.dataRaw + watcher.rawOff + i) = 0 := by
      rw [Memory.leWord_eq_zero_iff, load, List.forall_mem_map]
      simp only [List.mem_range]
    rw [perfValueFromSample_of_fits hraw hfits, ← hzero]
    constructor
    · intro h
      have hvalue := h.value
      rw [if_pos hfits] at hvalue
      exact ⟨hfits, hvalue.symm⟩
    · rintro ⟨-, hvalue⟩
      refine ⟨?_, fun a ha => absurd ha List.not_mem_nil⟩
      rw [if_pos hfits, hvalue]
  · rw [perfValueFromSample_of_not_fits hraw hfits]
    refine ⟨fun h => ?_, fun h => absurd h.1 hfits⟩
    have hlast := (h.inside _ (last_mem_fetch_reads hraw.rawSz_pos)).2
    omega

def rawWatcher : PerfWatcher :=
  { tracepointDefaultWatcher with
    sampleType := baseStypes ||| perfSampleRaw
    valueSource := .raw
    rawOff := 4
    rawSz := 4 }

/-- A record with raw data only, of the given size. Its first bytes are 0 and then 5. -/
def rawRecord (sizeRaw : ℕ) : PerfRecord where
  addr := 4096
  bytes := Circular.leBytes 8 0 ++ Circular.leBytes 4 sizeRaw ++ Circular.leBytes 4 0 ++
    Circular.leBytes 4 5

def rawRecordValue (sizeRaw : ℕ) : Fetched :=
  let hdr := rawRecord sizeRaw
  perfValueFromSample hdr.mem rawWatcher (hdr2samp {} hdr PerfSample.raw).1

/-- A value of 0 in eight bytes of data. -/
theorem readsRaw_perfValueFromSample_zero :
    rawWatcher.IsRaw ∧ ReadsRaw (fun _ => 0) rawWatcher { sizeRaw := 8 }
      (perfValueFromSample (fun _ => 0) rawWatcher { sizeRaw := 8 }) := by
  have hraw : rawWatcher.IsRaw := ⟨by decide, by decide, by decide⟩
  exact ⟨hraw, (readsRaw_perfValueFromSample_iff _ _ _ hraw).mpr ⟨by decide, fun _ _ => rfl⟩⟩

/-- With eight bytes of data, the value is there and 0 is returned. With four, the value is read
beyond the end of the data. -/
theorem perfValueFromSample_inverted :
    (hdr2samp {} (rawRecord 8) PerfSample.raw).1.sizeRaw = 8 ∧
      (hdr2samp {} (rawRecord 8) PerfSample.raw).1.dataRaw = 4108 ∧
      leWord (load (rawRecord 8).mem (4108 + rawWatcher.rawOff) rawWatcher.rawSz) = 5 ∧
      rawRecordValue 8 = ⟨0, []⟩ ∧
      (hdr2samp {} (rawRecord 4) PerfSample.raw).1.sizeRaw = 4 ∧
      (hdr2samp {} (rawRecord 4) PerfSample.raw).1.dataRaw = 4108 ∧
      rawRecordValue 4 = ⟨5, [4112, 4113, 4114, 4115]⟩ := by
  decide +kernel

end Ddprof
