import Ddprof.Symbols.RuntimeLookup

/-!
How often the files of generated symbols are read.

A lookup reads the file of its source when it has no span for the address, unless a lookup of the
same process and source has failed during the current cycle. A reading after which the address is
still unknown is such a failure. It is forgotten with the next cycle, or with the process.
-/

namespace Ddprof

inductive SymbolSource
  | perfmap
  | jitdump (path : List Char)
  deriving DecidableEq, Repr

def SymbolSource.key : SymbolSource → List Char
  | .perfmap => "perfmap".toList
  | .jitdump path => path

/-- The process, the address and the source of a lookup. -/
def RuntimeCall.request : RuntimeCall → Option (ℤ × ℕ × SymbolSource)
  | .getOrInsert pid pc _ => some (pid, pc, .perfmap)
  | .getOrInsertJitdump pid pc jitdumpPath _ _ => some (pid, pc, .jitdump jitdumpPath)
  | .erase _ => none
  | .cycle => none
  | .pushBack _ => none

namespace RuntimeSymbolLookup

variable {lookup : RuntimeSymbolLookup} {pid : ℤ} {pc : ℕ} {symbolTable : SymbolTable}
  {path : List Char}

/-- What a lookup leaves of the failures: those of other processes stay, and its own source is
added if nothing is returned. -/
structure Notes (lookup : RuntimeSymbolLookup) (pid : ℤ) (path : List Char)
    (res : RuntimeSymbolLookup × SymbolTable × ℤ) : Prop where
  counter : res.1.cycleCounter = lookup.cycleCounter
  other : ∀ pid' ≠ pid, res.1.pidMap.get pid' = lookup.pidMap.get pid'
  failed : (res.1.pidMap.get pid).failedCycle =
    if res.2.2 = kSymbolIdxNull then
      AList.insert path lookup.cycleCounter (lookup.pidMap.get pid).failedCycle
    else (lookup.pidMap.get pid).failedCycle

theorem setInfo_notes {symbolInfo : SymbolInfo} {idx : ℤ}
    (hfailed : symbolInfo.failedCycle =
      if idx = kSymbolIdxNull then
        AList.insert path lookup.cycleCounter (lookup.pidMap.get pid).failedCycle
      else (lookup.pidMap.get pid).failedCycle) :
    lookup.Notes pid path (lookup.setInfo pid symbolInfo, symbolTable, idx) where
  counter := rfl
  other := fun pid' hne => UnorderedMap.get_insert_ne _ _ hne
  failed := by
    rw [setInfo, UnorderedMap.get_insert]
    exact hfailed

theorem conclude_notes (s : RuntimeSymbols) :
    lookup.Notes pid path (lookup.conclude pid pc path s) := by
  unfold conclude
  cases s.symbolMap.found pc with
  | none => exact setInfo_notes (if_pos rfl).symm
  | some e =>
    have hidx : (e.2.symbolIdx : ℤ) ≠ kSymbolIdxNull := by
      unfold kSymbolIdxNull
      omega
    exact setInfo_notes (if_neg hidx).symm

theorem getOrInsert_notes (perfmap : Option (List (List Char))) :
    lookup.Notes pid SymbolSource.perfmap.key
      (lookup.getOrInsert pid pc symbolTable perfmap) := by
  unfold getOrInsert
  split_ifs
  · exact conclude_notes _
  · exact conclude_notes _

theorem getOrInsertJitdump_notes (jitdumpPath : List Char) (inRoot atPath : JitdumpRead) :
    lookup.Notes pid jitdumpPath
      (lookup.getOrInsertJitdump pid pc symbolTable jitdumpPath inRoot atPath) := by
  unfold getOrInsertJitdump
  simp only
  split_ifs
  · split
    · exact setInfo_notes (if_pos rfl).symm
    · exact conclude_notes _
  · exact conclude_notes _

/-- A lookup of the source has failed during this cycle. -/
def Failed (lookup : RuntimeSymbolLookup) (pid : ℤ) (path : List Char) : Prop :=
  AList.lookup path (lookup.pidMap.get pid).failedCycle = some lookup.cycleCounter

theorem Failed.refreshes_eq (h : lookup.Failed pid path) (pc : ℕ) :
    lookup.refreshes pid pc path = false := by
  have hflag : lookup.hasLookupFailure (lookup.pidMap.get pid) path = true := by
    rw [hasLookupFailure, h]
    exact decide_eq_true rfl
  rw [refreshes, hflag, Bool.not_true, Bool.and_false]

variable {res : RuntimeSymbolLookup × SymbolTable × ℤ}

theorem Notes.failed_of_null
    (h : lookup.Notes pid path res) (hnull : res.2.2 = kSymbolIdxNull) : res.1.Failed pid path := by
  rw [Failed, h.failed, if_pos hnull, AList.lookup_insert, h.counter]

/-- A failure stays during the cycle, whatever is looked up. -/
theorem Notes.keeps {pid' : ℤ} {path' : List Char}
    (h : lookup.Notes pid' path' res) (hfailed : lookup.Failed pid path) :
    res.1.Failed pid path := by
  unfold Failed at hfailed ⊢
  rw [h.counter]
  by_cases hpid : pid = pid'
  · subst hpid
    rw [h.failed]
    split_ifs
    · by_cases hpath : path = path'
      · rw [hpath, AList.lookup_insert]
      · rw [AList.lookup_insert_ne hpath]
        exact hfailed
    · exact hfailed
  · rw [h.other pid hpid]
    exact hfailed

end RuntimeSymbolLookup

namespace SymbolHdr

variable {s s' : SymbolHdr} {pid : ℤ} {source : SymbolSource} {call : RuntimeCall}

def answer (s : SymbolHdr) : RuntimeCall → ℤ
  | .getOrInsert pid pc perfmap => (s.lookup.getOrInsert pid pc s.symbolTable perfmap).2.2
  | .getOrInsertJitdump pid pc jitdumpPath inRoot atPath =>
    (s.lookup.getOrInsertJitdump pid pc s.symbolTable jitdumpPath inRoot atPath).2.2
  | _ => kSymbolIdxNull

def reads (s : SymbolHdr) (call : RuntimeCall) : Bool :=
  call.request.any fun (pid, pc, source) => s.lookup.refreshes pid pc source.key

/-- The call reads the file of this process and source, and returns nothing. -/
def readsInVain (s : SymbolHdr) (pid : ℤ) (source : SymbolSource) (call : RuntimeCall) : Bool :=
  (call.request.any fun (pid', _, source') => pid' = pid && source' = source) &&
    s.reads call && s.answer call = kSymbolIdxNull

/-- The readings in vain along a sequence of calls. -/
def vainReads (pid : ℤ) (source : SymbolSource) : SymbolHdr → List RuntimeCall → ℕ
  | _, [] => 0
  | s, call :: calls =>
    (if s.readsInVain pid source call then 1 else 0) +
      match s.step call with
      | none => 0
      | some s' => vainReads pid source s' calls

theorem step_notes {pc : ℕ} (hrequest : call.request = some (pid, pc, source))
    (hstep : s.step call = some s') :
    ∃ res, s' = s.record res ∧ res.2.2 = s.answer call ∧ s.lookup.Notes pid source.key res := by
  cases call with
  | getOrInsert pid' pc' perfmap =>
    cases hrequest
    obtain rfl := Option.some.inj hstep
    exact ⟨_, rfl, rfl, RuntimeSymbolLookup.getOrInsert_notes perfmap⟩
  | getOrInsertJitdump pid' pc' jitdumpPath inRoot atPath =>
    cases hrequest
    obtain rfl := Option.some.inj hstep
    exact ⟨_, rfl, rfl, RuntimeSymbolLookup.getOrInsertJitdump_notes jitdumpPath inRoot atPath⟩
  | _ => cases hrequest

theorem step_keeps_failed (hcycle : call ≠ .cycle) (herase : call ≠ .erase pid)
    (hfailed : s.lookup.Failed pid source.key) (hstep : s.step call = some s') :
    s'.lookup.Failed pid source.key := by
  cases hrequest : call.request with
  | some request =>
    obtain ⟨pid', pc, source'⟩ := request
    obtain ⟨res, rfl, -, hnotes⟩ := step_notes hrequest hstep
    exact hnotes.keeps hfailed
  | none =>
    cases call with
    | erase pid' =>
      obtain rfl := Option.some.inj hstep
      have hne : pid ≠ pid' := fun h => herase (h ▸ rfl)
      unfold RuntimeSymbolLookup.Failed RuntimeSymbolLookup.erase
      rw [UnorderedMap.get_erase_ne _ hne]
      exact hfailed
    | cycle => exact absurd rfl hcycle
    | pushBack symbol =>
      obtain rfl := Option.some.inj hstep
      exact hfailed
    | getOrInsert pid' pc perfmap => cases hrequest
    | getOrInsertJitdump pid' pc jitdumpPath inRoot atPath => cases hrequest

theorem readsInVain_request (h : s.readsInVain pid source call = true) :
    ∃ pc, call.request = some (pid, pc, source) ∧ s.reads call = true ∧
      s.answer call = kSymbolIdxNull := by
  simp only [readsInVain, Bool.and_eq_true, decide_eq_true_eq, Option.any_eq_true] at h
  obtain ⟨⟨⟨⟨pid', pc, source'⟩, hrequest, rfl, rfl⟩, hreads⟩, hanswer⟩ := h
  exact ⟨pc, hrequest, hreads, hanswer⟩

theorem failed_of_readsInVain (h : s.readsInVain pid source call = true)
    (hstep : s.step call = some s') : s'.lookup.Failed pid source.key := by
  obtain ⟨pc, hrequest, -, hanswer⟩ := readsInVain_request h
  obtain ⟨res, rfl, hres, hnotes⟩ := step_notes hrequest hstep
  exact hnotes.failed_of_null (hres.trans hanswer)

theorem readsInVain_of_failed (hfailed : s.lookup.Failed pid source.key) (call : RuntimeCall) :
    s.readsInVain pid source call = false := by
  rw [Bool.eq_false_iff]
  intro h
  obtain ⟨pc, hrequest, hreads, -⟩ := readsInVain_request h
  rw [reads, hrequest, Option.any_some] at hreads
  exact Bool.false_ne_true ((hfailed.refreshes_eq pc).symm.trans hreads)

/-- After a failure there is no reading in vain until the cycle ends or the process is erased. -/
theorem vainReads_of_failed {calls : List RuntimeCall}
    (hcalls : ∀ call ∈ calls, call ≠ .cycle ∧ call ≠ .erase pid)
    (hfailed : s.lookup.Failed pid source.key) : vainReads pid source s calls = 0 := by
  induction calls generalizing s with
  | nil => rfl
  | cons call calls ih =>
    rw [List.forall_mem_cons] at hcalls
    rw [vainReads, readsInVain_of_failed hfailed]
    cases hstep : s.step call with
    | none => rfl
    | some s' =>
      have hfailed' := step_keeps_failed hcalls.1.1 hcalls.1.2 hfailed hstep
      simpa using ih hcalls.2 hfailed'

theorem vainReads_le_one (s : SymbolHdr) {calls : List RuntimeCall}
    (hcalls : ∀ call ∈ calls, call ≠ .cycle ∧ call ≠ .erase pid) :
    vainReads pid source s calls ≤ 1 := by
  induction calls generalizing s with
  | nil => exact Nat.zero_le 1
  | cons call calls ih =>
    rw [List.forall_mem_cons] at hcalls
    rw [vainReads]
    cases hstep : s.step call with
    | none => split_ifs <;> simp
    | some s' =>
      split_ifs with hvain
      · have hzero := vainReads_of_failed hcalls.2 (failed_of_readsInVain hvain hstep)
        simp [hzero]
      · simpa using ih s' hcalls.2

/-! ### Addresses that are known -/

def covers (s : SymbolHdr) (pid : ℤ) (pc : ℕ) : Bool :=
  ((s.lookup.pidMap.get pid).map.found pc).isSome

theorem refreshes_of_covers {pc : ℕ} (h : s.covers pid pc = true) (path : List Char) :
    s.lookup.refreshes pid pc path = false := by
  have hsome : ((s.lookup.pidMap.get pid).map.found pc).isSome = true := h
  rw [RuntimeSymbolLookup.refreshes, ← Option.not_isSome, hsome, Bool.not_true, Bool.false_and]

theorem conclude_answer_ne {pc : ℕ} (h : s.covers pid pc = true) (path : List Char) :
    (s.lookup.conclude pid pc path (s.lookup.symbols pid s.symbolTable)).2.2 ≠ kSymbolIdxNull := by
  obtain ⟨e, he⟩ := Option.isSome_iff_exists.mp h
  have hfound : (s.lookup.symbols pid s.symbolTable).symbolMap.found pc = some e := he
  rw [RuntimeSymbolLookup.conclude, hfound]
  simp only [kSymbolIdxNull]
  omega

/-- A lookup of a known address does the same whatever is in the files. -/
theorem step_of_covers {pc : ℕ} (h : s.covers pid pc = true)
    (hrequest : call.request = some (pid, pc, source)) :
    s.step call = some (s.record (s.lookup.conclude pid pc source.key
        (s.lookup.symbols pid s.symbolTable))) ∧ s.answer call ≠ kSymbolIdxNull := by
  have hrefresh := refreshes_of_covers h
  have hanswer := conclude_answer_ne h source.key
  cases call with
  | getOrInsert pid' pc' perfmap =>
    cases hrequest
    have heq : s.lookup.getOrInsert pid pc s.symbolTable perfmap =
        s.lookup.conclude pid pc SymbolSource.perfmap.key
          (s.lookup.symbols pid s.symbolTable) := by
      rw [RuntimeSymbolLookup.getOrInsert, hrefresh]
      rfl
    rw [step, answer, heq]
    exact ⟨rfl, hanswer⟩
  | getOrInsertJitdump pid' pc' jitdumpPath inRoot atPath =>
    cases hrequest
    have heq : s.lookup.getOrInsertJitdump pid pc s.symbolTable jitdumpPath inRoot atPath =
        s.lookup.conclude pid pc jitdumpPath (s.lookup.symbols pid s.symbolTable) := by
      rw [RuntimeSymbolLookup.getOrInsertJitdump, hrefresh]
      rfl
    rw [step, answer, heq]
    exact ⟨rfl, hanswer⟩
  | _ => cases hrequest

/-- Whatever has been called before: as long as neither the cycle ends nor the process is erased,
at most one reading of a source of the process leaves the address unknown that it was made for.
A lookup of an address that is in a span of the process reads nothing, finds the span, and does
the same for all contents of the files. -/
theorem vainReads_le_one_of_cycle (s : SymbolHdr) (pid : ℤ) (source : SymbolSource) :
    (∀ calls : List RuntimeCall, (∀ call ∈ calls, call ≠ .cycle ∧ call ≠ .erase pid) →
      vainReads pid source s calls ≤ 1) ∧
    ∀ (pc : ℕ) (call : RuntimeCall), s.covers pid pc = true →
      call.request = some (pid, pc, source) →
      s.reads call = false ∧ s.answer call ≠ kSymbolIdxNull ∧
        ∀ call' : RuntimeCall, call'.request = call.request → s.step call' = s.step call := by
  refine ⟨fun calls => vainReads_le_one s, fun pc call hcovers hrequest => ⟨?_, ?_, ?_⟩⟩
  · rw [reads, hrequest]
    exact refreshes_of_covers hcovers source.key
  · exact (step_of_covers hcovers hrequest).2
  · intro call' hrequest'
    rw [hrequest] at hrequest'
    rw [(step_of_covers hcovers hrequest).1, (step_of_covers hcovers hrequest').1]

/-- Without a perf-map two addresses cost one reading, and one more in the next cycle. -/
theorem vainReads_le_one_of_cycle_two :
    let calls : List RuntimeCall :=
      [.getOrInsert 7 0x110 none, .getOrInsert 7 0x210 none, .getOrInsert 8 0x110 none]
    vainReads 7 .perfmap {} calls = 1 ∧ vainReads 7 .perfmap {} calls ≤ 1 ∧
      vainReads 7 .perfmap {} (calls ++ [.cycle, .getOrInsert 7 0x110 none]) = 2 := by
  intro calls
  refine ⟨by decide +kernel, (vainReads_le_one_of_cycle {} 7 .perfmap).1 calls ?_,
    by decide +kernel⟩
  simp [calls]

end SymbolHdr

end Ddprof
