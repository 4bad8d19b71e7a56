import Ddprof.Lib.UnorderedMap

/-!
The processes that are profiled, and the limit on how many of them are unwound.

A process is entered into the map with its first sample, and is attached to the unwinding library
the first time that one of its samples is unwound. The limit is compared with the number of
processes in the map, which has the process of the sample already.
-/

namespace Ddprof

/-- What the kernel gives as the number of a process; -1 stands for one that is gone. -/
abbrev Pid := { pid : ℤ // -1 ≤ pid ∧ pid < 2 ^ 31 }

def kUnlimitedMaxProfiledPids : ℤ := -1

/-! ### The unwinding library -/

/-- What the library answers: `dwfl_begin` returns a session, and `dwfl_attach_state` succeeds. -/
structure DwflAnswer where
  begins : Bool
  attachesState : Bool
  deriving DecidableEq, Repr

inductive UnwindRes
  | ok
  | maxPids
  | dwflLibError
  deriving DecidableEq, Repr

structure DwflWrapper where
  dwfl : Bool := false
  attached : Bool := false
  deriving DecidableEq, Repr

def DwflWrapper.attach (wrapper : DwflWrapper) (answer : DwflAnswer) : DwflWrapper × UnwindRes :=
  if wrapper.attached then (wrapper, .ok)
  else if answer.begins = false then ({ wrapper with dwfl := false }, .dwflLibError)
  else if answer.attachesState = false then ({ wrapper with dwfl := true }, .dwflLibError)
  else ({ dwfl := true, attached := true }, .ok)

/-! ### Processes -/

namespace ProcessHdr

structure Process where
  dwflWrapper : Option DwflWrapper := none
  deriving DecidableEq, Repr

namespace Process

def getOrInsertDwfl (process : Process) : DwflWrapper := process.dwflWrapper.getD {}

def isAttached (process : Process) : Bool := process.dwflWrapper.any DwflWrapper.attached

/-- `unwind_init_dwfl`. The wrapper is created in any case. -/
def unwindInitDwfl (process : Process) (avoidNewAttach : Bool) (answer : DwflAnswer) :
    Process × UnwindRes :=
  let wrapper := process.getOrInsertDwfl
  if avoidNewAttach ∧ wrapper.attached = false then ({ dwflWrapper := some wrapper }, .maxPids)
  else ({ dwflWrapper := some (wrapper.attach answer).1 }, (wrapper.attach answer).2)

theorem attached_getOrInsertDwfl (process : Process) :
    process.getOrInsertDwfl.attached = process.isAttached := by
  obtain ⟨_ | wrapper⟩ := process
  · rfl
  · rfl

/-- Only a process that may be attached changes in that respect. -/
theorem isAttached_unwindInitDwfl {process : Process} {avoidNewAttach : Bool} (answer : DwflAnswer)
    (h : process.isAttached = true ∨ avoidNewAttach = true) :
    (process.unwindInitDwfl avoidNewAttach answer).1.isAttached = process.isAttached := by
  have hattached := process.attached_getOrInsertDwfl
  rw [unwindInitDwfl]
  split_ifs with havoid
  · rw [← hattached]
    rfl
  · have htrue : process.getOrInsertDwfl.attached = true := by
      rcases h with h | h
      · rw [hattached, h]
      · by_contra hfalse
        exact havoid ⟨h, by simpa using hfalse⟩
    rw [DwflWrapper.attach, if_pos htrue, ← hattached]
    rfl

end Process

end ProcessHdr

structure ProcessHdr where
  visitedPid : List Pid := []
  processMap : UnorderedMap Pid ProcessHdr.Process := ∅

namespace ProcessHdr

def flagVisited (hdr : ProcessHdr) (pid : Pid) : ProcessHdr :=
  { hdr with visitedPid := hdr.visitedPid.insert pid }

/-- The process, which the access creates. -/
def get (hdr : ProcessHdr) (pid : Pid) : ProcessHdr × Process :=
  let hdr := hdr.flagVisited pid
  match AList.lookup pid hdr.processMap with
  | some process => (hdr, process)
  | none => ({ hdr with processMap := AList.insert pid {} hdr.processMap }, {})

def clear (hdr : ProcessHdr) (pid : Pid) : ProcessHdr :=
  { hdr with processMap := AList.erase pid hdr.processMap }

/-- The size of the map, as an `unsigned`. -/
def processCount (hdr : ProcessHdr) : ℕ := hdr.processMap.entries.length % 2 ^ 32

def getUnvisited (hdr : ProcessHdr) : List Pid :=
  hdr.processMap.keys.filter fun pid => pid ∉ hdr.visitedPid

def resetUnvisited (hdr : ProcessHdr) : ProcessHdr := { hdr with visitedPid := [] }

/-- The limit is a signed number that is compared as an unsigned one. -/
def avoidNewAttach (hdr : ProcessHdr) (maximumPids : ℤ) : Bool :=
  maximumPids ≠ kUnlimitedMaxProfiledPids ∧ (maximumPids % 2 ^ 32).toNat < hdr.processCount

/-- A process is changed through the reference that `get` returns. -/
def setProcess (hdr : ProcessHdr) (pid : Pid) (process : Process) : ProcessHdr :=
  { hdr with processMap := AList.insert pid process hdr.processMap }

/-- What `unwindstate_unwind` does with the processes, before the frames are unwound. -/
def unwindInit (hdr : ProcessHdr) (maximumPids : ℤ) (pid : Pid) (answer : DwflAnswer) :
    ProcessHdr × UnwindRes :=
  let (hdr, process) := hdr.get pid
  -- pid 0 is not unwound
  if pid.1 = 0 then (hdr, .ok)
  else
    let (process, res) := process.unwindInitDwfl (hdr.avoidNewAttach maximumPids) answer
    (hdr.setProcess pid process, res)

/-- `clear_unvisited_pids`: an error in the aggregation of a process ends it after `n` processes
have been freed. -/
def clearUnvisited (hdr : ProcessHdr) (error : Option ℕ) : ProcessHdr :=
  match error with
  | none => { hdr with processMap := hdr.processMap.eraseAll hdr.getUnvisited }.resetUnvisited
  | some n => { hdr with processMap := hdr.processMap.eraseAll (hdr.getUnvisited.take n) }

end ProcessHdr

inductive ProcessOp
  | sample (pid : Pid) (answer : DwflAnswer)
  | pidFree (pid : Pid)
  | flagVisited (pid : Pid)
  | cycle (error : Option ℕ)
  deriving DecidableEq, Repr

namespace ProcessHdr

def step (maximumPids : ℤ) (hdr : ProcessHdr) : ProcessOp → ProcessHdr
  | .sample pid answer => (hdr.unwindInit maximumPids pid answer).1
  | .pidFree pid => hdr.clear pid
  | .flagVisited pid => hdr.flagVisited pid
  | .cycle error => hdr.clearUnvisited error

def run (maximumPids : ℤ) (ops : List ProcessOp) : ProcessHdr :=
  ops.foldl (step maximumPids) {}

def attachedCount (hdr : ProcessHdr) : ℕ :=
  hdr.processMap.sumOf fun process => if process.isAttached then 1 else 0

/-! ### The limit -/

/-- There are fewer numbers of processes than an `unsigned` can count. -/
theorem processCount_eq (hdr : ProcessHdr) : hdr.processCount = hdr.processMap.entries.length := by
  have hnodup : hdr.processMap.keys.Nodup := hdr.processMap.keys_nodup
  have hsub : hdr.processMap.keys.map Subtype.val ⊆ (Finset.Ico (-1 : ℤ) (2 ^ 31)).toList := by
    intro p hp
    obtain ⟨pid, -, rfl⟩ := List.mem_map.mp hp
    exact Finset.mem_toList.mpr (Finset.mem_Ico.mpr pid.2)
  have hle := ((hnodup.map Subtype.val_injective).subperm hsub).length_le
  rw [List.length_map, Finset.length_toList, Int.card_Ico] at hle
  have hlength : hdr.processMap.keys.length = hdr.processMap.entries.length := List.length_map ..
  rw [processCount]
  refine Nat.mod_eq_of_lt ?_
  rw [hlength] at hle
  exact hle.trans_lt (by norm_num)

theorem attachedCount_le_processCount (hdr : ProcessHdr) :
    hdr.attachedCount ≤ hdr.processCount := by
  rw [processCount_eq]
  refine UnorderedMap.sumOf_le_length (fun process => ?_) _
  split_ifs
  · exact le_rfl
  · exact Nat.zero_le 1

variable {maximumPids : ℤ}

theorem attachedCount_empty_le (hlow : 1 ≤ maximumPids) :
    (attachedCount {} : ℤ) ≤ maximumPids :=
  le_trans (by decide) hlow

theorem lookup_get (hdr : ProcessHdr) (pid : Pid) :
    AList.lookup pid (hdr.get pid).1.processMap = some (hdr.get pid).2 := by
  rw [get]
  cases hlook : AList.lookup pid (hdr.flagVisited pid).processMap with
  | none => exact AList.lookup_insert _
  | some process => exact hlook

theorem attachedCount_get (hdr : ProcessHdr) (pid : Pid) :
    (hdr.get pid).1.attachedCount = hdr.attachedCount := by
  rw [get]
  cases hlook : AList.lookup pid (hdr.flagVisited pid).processMap with
  | none => exact UnorderedMap.sumOf_insert_of_none hlook rfl
  | some process => rfl

variable {hdr : ProcessHdr}

theorem processCount_setProcess {pid : Pid} {process : Process}
    (h : AList.lookup pid hdr.processMap = some process) (process' : Process) :
    (hdr.setProcess pid process').processCount = hdr.processCount :=
  congrArg (· % 2 ^ 32) (UnorderedMap.length_insert_of_lookup h process')

theorem attachedCount_unwindInit_le (hlow : 1 ≤ maximumPids)
    (hhigh : maximumPids < 2 ^ 31) (h : hdr.attachedCount ≤ maximumPids) (pid : Pid)
    (answer : DwflAnswer) :
    (hdr.unwindInit maximumPids pid answer).1.attachedCount ≤ maximumPids := by
  have hget := hdr.attachedCount_get pid
  have hlook := hdr.lookup_get pid
  rw [unwindInit]
  generalize hdr.get pid = got at hget hlook
  obtain ⟨hdr', process⟩ := got
  rw [← hget] at h
  simp only
  split_ifs with hzero
  · exact h
  · by_cases hsame : process.isAttached = true ∨ hdr'.avoidNewAttach maximumPids = true
    · have hattached := Process.isAttached_unwindInitDwfl answer hsame
      refine le_trans (le_of_eq ?_) h
      refine congrArg Nat.cast (UnorderedMap.sumOf_insert_of_lookup _ hlook ?_)
      rw [hattached]
    · -- the process of the sample is counted already
      obtain ⟨-, hnew⟩ := not_or.mp hsame
      have hcount : hdr'.processCount ≤ maximumPids.toNat := by
        rw [avoidNewAttach, decide_eq_true_eq, not_and, Nat.not_lt] at hnew
        have hle := hnew (by rw [kUnlimitedMaxProfiledPids]; omega)
        rwa [Int.emod_eq_of_lt (by omega) (by omega)] at hle
      have hle := attachedCount_le_processCount (hdr'.setProcess pid
        (process.unwindInitDwfl (hdr'.avoidNewAttach maximumPids) answer).1)
      rw [processCount_setProcess hlook] at hle
      exact (Int.ofNat_le.mpr (hle.trans hcount)).trans (Int.toNat_of_nonneg (by omega)).le

theorem attachedCount_step_le (hlow : 1 ≤ maximumPids)
    (hhigh : maximumPids < 2 ^ 31) (h : hdr.attachedCount ≤ maximumPids) (op : ProcessOp) :
    (hdr.step maximumPids op).attachedCount ≤ maximumPids := by
  have hkeys (keys : List Pid) : UnorderedMap.sumOf
      (fun process : Process => if process.isAttached then 1 else 0)
      (hdr.processMap.eraseAll keys) ≤ hdr.attachedCount := UnorderedMap.sumOf_eraseAll_le ..
  cases op with
  | sample pid answer => exact attachedCount_unwindInit_le hlow hhigh h pid answer
  | pidFree pid => exact (Int.ofNat_le.mpr (hkeys [pid])).trans h
  | flagVisited pid => exact h
  | cycle error =>
    cases error with
    | none => exact (Int.ofNat_le.mpr (hkeys hdr.getUnvisited)).trans h
    | some n => exact (Int.ofNat_le.mpr (hkeys (hdr.getUnvisited.take n))).trans h

/-- Whatever samples, frees and cycles there have been, at most as many processes are attached as
the limit says. -/
theorem attachedCount_run_le {maximumPids : ℤ} (hlow : 1 ≤ maximumPids)
    (hhigh : maximumPids < 2 ^ 31) (ops : List ProcessOp) :
    (run maximumPids ops).attachedCount ≤ maximumPids := by
  have hfold : ∀ hdr : ProcessHdr, hdr.attachedCount ≤ maximumPids →
      (ops.foldl (step maximumPids) hdr).attachedCount ≤ maximumPids := by
    induction ops with
    | nil => exact fun hdr h => h
    | cons op rest ih => exact fun hdr h => ih _ (attachedCount_step_le hlow hhigh h op)
  exact hfold {} (attachedCount_empty_le hlow)

/-- Samples of two processes, the second one again after a cycle. -/
def twoPids : List ProcessOp :=
  [.sample ⟨7, by decide⟩ ⟨true, true⟩, .sample ⟨8, by decide⟩ ⟨true, true⟩, .cycle none,
    .sample ⟨8, by decide⟩ ⟨true, true⟩]

/-- With a limit of one, the first process is attached and the second is not. -/
theorem attachedCount_run_twoPids :
    (run 1 twoPids).attachedCount = 1 ∧ (run 1 twoPids).attachedCount ≤ (1 : ℤ) :=
  ⟨by decide +kernel, attachedCount_run_le (by decide) (by decide) _⟩

end ProcessHdr

end Ddprof
