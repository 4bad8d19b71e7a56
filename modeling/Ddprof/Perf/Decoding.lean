import Ddprof.Perf.Record
import Ddprof.Unwind.Registers

/-!
`hdr2samp`: the decoder of sample records.

The fields that the mask announces stand one after the other in the record. The decoder writes
them into one static object, and leaves the other fields of the object as earlier records left
them. So what it returns is a function of the record and the mask only for the fields that the
mask announces.
-/

namespace Ddprof

open Circular (Byte)

structure PerfRecord where
  addr : ℕ
  bytes : List Byte
  deriving DecidableEq

namespace PerfRecord

def word (hdr : PerfRecord) (buf : ℕ) : ℕ := wordAt hdr.bytes (perfHeaderSize + 8 * buf)

def pointer (hdr : PerfRecord) (buf : ℕ) : ℕ := hdr.addr + perfHeaderSize + 8 * buf

/-- The two halves that `flipper` gives access to. -/
def half0 (hdr : PerfRecord) (buf : ℕ) : ℕ := hdr.word buf % 2 ^ 32
def half1 (hdr : PerfRecord) (buf : ℕ) : ℕ := hdr.word buf / 2 ^ 32

/-- The memory that the pointers into the record point to. -/
def mem (hdr : PerfRecord) : ℕ → Byte :=
  fun a => if hdr.addr ≤ a then hdr.bytes.getD (a - hdr.addr) 0 else 0

end PerfRecord

/-- `perf_event_sample`. Pointers are addresses, with 0 for `nullptr`. -/
structure PerfEventSample where
  header : ℕ := 0
  sampleId : ℕ := 0
  ip : ℕ := 0
  pid : ℕ := 0
  tid : ℕ := 0
  time : ℕ := 0
  addr : ℕ := 0
  id : ℕ := 0
  streamId : ℕ := 0
  cpu : ℕ := 0
  res : ℕ := 0
  period : ℕ := 0
  v : ℕ := 0
  nr : ℕ := 0
  ips : ℕ := 0
  sizeRaw : ℕ := 0
  dataRaw : ℕ := 0
  abi : ℕ := 0
  regs : ℕ := 0
  sizeStack : ℕ := 0
  dataStack : ℕ := 0
  dynSizeStack : ℕ := 0
  deriving DecidableEq, Repr

inductive SampleField
  | identifier | ip | tid | time | addr | id | streamId | cpu | period | read | callchain | raw
  | regsUser | stackUser
  deriving DecidableEq, Repr

/-- `PERF_SAMPLE_REGS_ABI_64`. -/
def regsAbi64 : ℕ := 2

namespace SampleField

def bit : SampleField → ℕ
  | identifier => PerfSample.identifier
  | ip => PerfSample.ip
  | tid => PerfSample.tid
  | time => PerfSample.time
  | addr => PerfSample.addr
  | id => PerfSample.id
  | streamId => PerfSample.streamId
  | cpu => PerfSample.cpu
  | period => PerfSample.period
  | read => PerfSample.read
  | callchain => PerfSample.callchain
  | raw => PerfSample.raw
  | regsUser => PerfSample.regsUser
  | stackUser => PerfSample.stackUser

def isIn (f : SampleField) (mask : ℕ) : Bool := mask &&& f.bit ≠ 0

/-- The number of words of the stack, rounded up as the source does. -/
def stackWords (sizeStack : ℕ) : ℕ := (sizeStack + 7) % 2 ^ 64 / 8

/-- Where the field ends that starts at `buf`. -/
def next (f : SampleField) (hdr : PerfRecord) (buf : ℕ) : ℕ :=
  match f with
  | callchain => buf + 1 + hdr.word buf
  | raw => buf + (1 + hdr.half0 buf / 8)
  | regsUser => buf + 1 + kPerfRegisterCount
  | stackUser =>
    if hdr.word buf = 0 then buf + 1 else buf + 1 + stackWords (hdr.word buf) + 1
  | _ => buf + 1

/-- What the decoder stores for the field that starts at `buf`. -/
def store (f : SampleField) (hdr : PerfRecord) (buf : ℕ) (sample : PerfEventSample) :
    PerfEventSample :=
  match f with
  | identifier => { sample with sampleId := hdr.word buf }
  | ip => { sample with ip := hdr.word buf }
  | tid => { sample with pid := hdr.half0 buf, tid := hdr.half1 buf }
  | time => { sample with time := hdr.word buf }
  | addr => { sample with addr := hdr.word buf }
  | id => { sample with id := hdr.word buf }
  | streamId => { sample with streamId := hdr.word buf }
  | cpu => { sample with cpu := hdr.half0 buf, res := hdr.half1 buf }
  | period => { sample with period := hdr.word buf }
  | read => { sample with v := hdr.pointer buf }
  | callchain => { sample with nr := hdr.word buf, ips := hdr.pointer (buf + 1) }
  | raw =>
    { sample with
      sizeRaw := hdr.half0 buf
      dataRaw := if hdr.half0 buf ≠ 0 then hdr.pointer buf + 4 else 0 }
  | regsUser =>
    { sample with
      abi := hdr.word buf
      -- the source returns before it stores the pointer
      regs := if hdr.word buf = regsAbi64 then hdr.pointer (buf + 1) else sample.regs }
  | stackUser =>
    let sizeStack := hdr.word buf
    let dynszStack := hdr.word (buf + 1 + stackWords sizeStack)
    { sample with
      sizeStack := if sizeStack = 0 then 0 else if sizeStack < dynszStack then 0 else dynszStack
      dataStack := if sizeStack = 0 then 0 else hdr.pointer (buf + 1)
      dynSizeStack := if sizeStack = 0 then 0 else dynszStack }

/-- Registers of another word size make the decoder give up. -/
def rejects (f : SampleField) (hdr : PerfRecord) (buf : ℕ) : Bool :=
  match f with
  | regsUser => hdr.word buf ≠ regsAbi64
  | _ => false

end SampleField

structure Cursor where
  sample : PerfEventSample
  buf : ℕ
  rejected : Bool

def Cursor.step (hdr : PerfRecord) (mask : ℕ) (c : Cursor) (f : SampleField) : Cursor :=
  if c.rejected || !f.isIn mask then c
  else ⟨f.store hdr c.buf c.sample, f.next hdr c.buf, f.rejects hdr c.buf⟩

/-- The fields before the registers, in the order of the record. -/
def fieldsBeforeRegs : List SampleField :=
  [.identifier, .ip, .tid, .time, .addr, .id, .streamId, .cpu, .period, .read, .callchain, .raw]

def fieldOrder : List SampleField := fieldsBeforeRegs ++ [.regsUser, .stackUser]

/-- The static object after the call, and whether the function returns it and not `nullptr`. -/
def hdr2samp (sample : PerfEventSample) (hdr : PerfRecord) (mask : ℕ) : PerfEventSample × Bool :=
  let c := fieldOrder.foldl (Cursor.step hdr mask)
    ⟨{ sample with header := wordAt hdr.bytes 0 }, 0, false⟩
  (c.sample, !c.rejected)

/-- The static object after the decoding of a sequence of records. -/
def decodeAll (history : List (PerfRecord × ℕ)) : PerfEventSample :=
  history.foldl (fun sample r => (hdr2samp sample r.1 r.2).1) {}

/-- What `ddprof_pr_sample` and `perf_value_from_sample` read of a field, and, of the fields
that they do not read, what the decoder stores. -/
def PerfEventSample.part (sample : PerfEventSample) : SampleField → List ℕ
  | .identifier => [sample.sampleId]
  | .ip => [sample.ip]
  | .tid => [sample.pid, sample.tid]
  | .time => [sample.time]
  | .addr => [sample.addr]
  | .id => [sample.id]
  | .streamId => [sample.streamId]
  | .cpu => [sample.cpu, sample.res]
  | .period => [sample.period]
  | .read => [sample.v]
  | .callchain => [sample.nr, sample.ips]
  | .raw => [sample.sizeRaw, sample.dataRaw]
  | .regsUser => [sample.regs]
  | .stackUser => [sample.sizeStack, sample.dataStack]

/-- The fields that `ddprof_pr_sample` and `perf_value_from_sample` read. -/
def consumedFields : List SampleField := [.tid, .time, .addr, .period, .raw, .regsUser, .stackUser]

/-! ### One field -/

variable {hdr : PerfRecord} {mask buf : ℕ}

theorem part_store_of_ne {f g : SampleField} (hne : g ≠ f) (sample : PerfEventSample) :
    (f.store hdr buf sample).part g = sample.part g := by
  cases f <;> cases g <;> first | rfl | exact absurd rfl hne

variable {f : SampleField}

/-- A field that is not rejected is stored as the record has it. -/
theorem part_store_self (hok : f.rejects hdr buf = false) (sample sample' : PerfEventSample) :
    (f.store hdr buf sample).part f = (f.store hdr buf sample').part f := by
  cases f with
  | regsUser =>
    have habi : hdr.word buf = regsAbi64 := by simpa [SampleField.rejects] using hok
    simp only [SampleField.store, PerfEventSample.part, if_pos habi]
  | _ => rfl

namespace Cursor

theorem step_of_rejected {c : Cursor} (h : c.rejected = true) (f : SampleField) :
    c.step hdr mask f = c := by
  rw [step, h, Bool.true_or, if_pos rfl]

theorem step_of_absent (h : f.isIn mask = false) (c : Cursor) :
    c.step hdr mask f = c := by
  rw [step, h, Bool.not_false, Bool.or_true, if_pos rfl]

theorem step_of_isIn {c : Cursor} (hrej : c.rejected = false) (h : f.isIn mask = true) :
    c.step hdr mask f = ⟨f.store hdr c.buf c.sample, f.next hdr c.buf, f.rejects hdr c.buf⟩ := by
  rw [step, hrej, h]
  rfl

variable (hdr mask) in
/-- No field but the registers makes the decoder give up. -/
theorem rejected_step_of_ne (hne : f ≠ .regsUser) (c : Cursor) :
    (c.step hdr mask f).rejected = c.rejected := by
  unfold step
  split_ifs with hskip
  · rfl
  · have hc : c.rejected = false := by
      rw [Bool.or_eq_true, not_or, Bool.not_eq_true] at hskip
      exact hskip.1
    rw [hc]
    cases f <;> first | rfl | exact absurd rfl hne

/-- A field that the mask does not announce stays as it was. -/
theorem part_step_of_absent {f g : SampleField} (h : g = f → g.isIn mask = false) (c : Cursor) :
    (c.step hdr mask f).sample.part g = c.sample.part g := by
  unfold step
  split_ifs with hskip
  · rfl
  · by_cases hgf : g = f
    · have habsent := h hgf
      rw [hgf] at habsent
      simp [habsent] at hskip
    · exact part_store_of_ne hgf c.sample

variable (hdr mask) in
theorem step_agree {c c' : Cursor} (hbuf : c.buf = c'.buf) (hrej : c.rejected = c'.rejected)
    (f : SampleField) :
    (c.step hdr mask f).buf = (c'.step hdr mask f).buf ∧
      (c.step hdr mask f).rejected = (c'.step hdr mask f).rejected ∧
      ((c.step hdr mask f).rejected = false → ∀ g,
        c.sample.part g = c'.sample.part g ∨ g = f ∧ g.isIn mask = true →
        (c.step hdr mask f).sample.part g = (c'.step hdr mask f).sample.part g) := by
  cases hc : c.rejected with
  | true =>
    rw [step_of_rejected hc, step_of_rejected (hrej ▸ hc)]
    refine ⟨hbuf, hrej, fun hfalse => ?_⟩
    rw [hc] at hfalse
    cases hfalse
  | false =>
    have hc' : c'.rejected = false := hrej ▸ hc
    cases hin : f.isIn mask with
    | false =>
      rw [step_of_absent hin, step_of_absent hin]
      refine ⟨hbuf, hrej, fun _ g hg => hg.resolve_right ?_⟩
      rintro ⟨rfl, hgin⟩
      rw [hin] at hgin
      cases hgin
    | true =>
      rw [step_of_isIn hc hin, step_of_isIn hc' hin, ← hbuf]
      refine ⟨rfl, rfl, fun hok g hg => ?_⟩
      by_cases hgf : g = f
      · rw [hgf]
        exact part_store_self hok _ _
      · rw [part_store_of_ne hgf, part_store_of_ne hgf]
        exact hg.resolve_right fun h => hgf h.1

end Cursor

/-! ### All fields -/

theorem foldl_of_rejected {c : Cursor} (h : c.rejected = true) (fs : List SampleField) :
    fs.foldl (Cursor.step hdr mask) c = c := by
  induction fs with
  | nil => rfl
  | cons f rest ih => rw [List.foldl_cons, Cursor.step_of_rejected h, ih]

/-- Only the fields that the mask announces count. -/
theorem foldl_step_filter (hdr : PerfRecord) (mask : ℕ) (fs : List SampleField) (c : Cursor) :
    fs.foldl (Cursor.step hdr mask) c =
      (fs.filter (·.isIn mask)).foldl (Cursor.step hdr mask) c := by
  induction fs generalizing c with
  | nil => rfl
  | cons f rest ih =>
    cases hf : f.isIn mask with
    | false =>
      rw [List.filter_cons_of_neg (by simp [hf]), List.foldl_cons, Cursor.step_of_absent hf, ih]
    | true => rw [List.filter_cons_of_pos (by exact hf), List.foldl_cons, List.foldl_cons, ih]

theorem part_foldl_of_absent {g : SampleField} (h : g.isIn mask = false) (fs : List SampleField)
    (c : Cursor) : (fs.foldl (Cursor.step hdr mask) c).sample.part g = c.sample.part g := by
  induction fs generalizing c with
  | nil => rfl
  | cons f rest ih => rw [List.foldl_cons, ih, Cursor.part_step_of_absent fun _ => h]

variable (hdr mask) in
/-- Two decoders of the same record agree in the fields that the mask announces. -/
theorem foldl_agree (fs : List SampleField) (c c' : Cursor) (hbuf : c.buf = c'.buf)
    (hrej : c.rejected = c'.rejected) :
    (fs.foldl (Cursor.step hdr mask) c).rejected =
        (fs.foldl (Cursor.step hdr mask) c').rejected ∧
      ((fs.foldl (Cursor.step hdr mask) c).rejected = false → ∀ g,
        c.sample.part g = c'.sample.part g ∨ g ∈ fs ∧ g.isIn mask = true →
        (fs.foldl (Cursor.step hdr mask) c).sample.part g =
          (fs.foldl (Cursor.step hdr mask) c').sample.part g) := by
  induction fs generalizing c c' with
  | nil => exact ⟨hrej, fun _ g hg => hg.resolve_right fun h => absurd h.1 List.not_mem_nil⟩
  | cons f rest ih =>
    obtain ⟨hbuf', hrej', hparts⟩ := Cursor.step_agree hdr mask hbuf hrej f
    obtain ⟨hrejected, hrest⟩ := ih _ _ hbuf' hrej'
    refine ⟨hrejected, fun hok g hg => hrest hok g ?_⟩
    -- a decoder that gave up at this field would not have come to the end
    have hokStep : (c.step hdr mask f).rejected = false := by
      rw [← Bool.not_eq_true]
      intro htrue
      rw [List.foldl_cons, foldl_of_rejected htrue, htrue] at hok
      cases hok
    rcases hg with hsame | ⟨hmem, hin⟩
    · exact .inl (hparts hokStep g (.inl hsame))
    · rcases List.mem_cons.mp hmem with hgf | hmem
      · exact .inl (hparts hokStep g (.inr ⟨hgf, hin⟩))
      · exact .inr ⟨hmem, hin⟩

def regsOffset (hdr : PerfRecord) (mask : ℕ) : ℕ :=
  fieldsBeforeRegs.foldl (fun buf f => if f.isIn mask then f.next hdr buf else buf) 0

/-- The record has registers, and not of 64-bit code. -/
def IsRejected (hdr : PerfRecord) (mask : ℕ) : Prop :=
  SampleField.regsUser.isIn mask = true ∧ hdr.word (regsOffset hdr mask) ≠ regsAbi64

variable (hdr mask) in
/-- Before the registers, the decoder goes from field to field. -/
theorem foldl_of_forall_ne {fs : List SampleField} (hfs : ∀ f ∈ fs, f ≠ .regsUser) (c : Cursor)
    (hc : c.rejected = false) :
    (fs.foldl (Cursor.step hdr mask) c).rejected = false ∧
      (fs.foldl (Cursor.step hdr mask) c).buf =
        fs.foldl (fun buf f => if f.isIn mask then f.next hdr buf else buf) c.buf := by
  induction fs generalizing c with
  | nil => exact ⟨hc, rfl⟩
  | cons f rest ih =>
    have hstep := (Cursor.rejected_step_of_ne hdr mask (hfs f List.mem_cons_self) c).trans hc
    have hbuf : (c.step hdr mask f).buf = if f.isIn mask then f.next hdr c.buf else c.buf := by
      cases hin : f.isIn mask with
      | false =>
        rw [Cursor.step_of_absent hin]
        rfl
      | true =>
        rw [Cursor.step_of_isIn hc hin]
        rfl
    rw [List.foldl_cons, List.foldl_cons, ← hbuf]
    exact ih (fun g hg => hfs g (List.mem_cons_of_mem f hg)) _ hstep

/-- `nullptr` is returned exactly for registers of other than 64-bit code. -/
theorem hdr2samp_eq_false_iff (sample : PerfEventSample) :
    (hdr2samp sample hdr mask).2 = false ↔ IsRejected hdr mask := by
  obtain ⟨hrej, hbuf⟩ := foldl_of_forall_ne hdr mask
    (show ∀ f ∈ fieldsBeforeRegs, f ≠ .regsUser by decide)
    ⟨{ sample with header := wordAt hdr.bytes 0 }, 0, false⟩ rfl
  simp only [hdr2samp, fieldOrder, List.foldl_append, List.foldl_cons, List.foldl_nil]
  rw [Cursor.rejected_step_of_ne _ _ (by decide), Bool.not_eq_false', IsRejected, regsOffset]
  cases hin : SampleField.regsUser.isIn mask with
  | false =>
    rw [Cursor.step_of_absent hin, hrej]
    simp
  | true =>
    rw [Cursor.step_of_isIn hrej hin, hbuf]
    simp [SampleField.rejects]

theorem part_hdr2samp_of_absent (h : f.isIn mask = false)
    (sample : PerfEventSample) : (hdr2samp sample hdr mask).1.part f = sample.part f := by
  rw [hdr2samp, part_foldl_of_absent h]
  cases f <;> rfl

/-- The calls return the same, and what is read through the pointer is the same. -/
def SameSample (r r' : PerfEventSample × Bool) : Prop :=
  r.2 = r'.2 ∧ (r.2 = true → ∀ f ∈ consumedFields, r.1.part f = r'.1.part f)

/-- A record with a 2 as its first word. -/
def twoRecord : PerfRecord where
  addr := 4096
  bytes := Circular.leBytes 8 0 ++ Circular.leBytes 8 2

/-- Decoded as any field that is read, the word 2 leaves a trace. -/
theorem part_twoRecord_ne : ∀ f ∈ consumedFields,
    ({} : PerfEventSample).part f ≠ (decodeAll [(twoRecord, f.bit)]).part f := by
  decide +kernel

/-- A record is decoded independently of what was decoded before exactly if it is rejected or
its mask announces every field that is read. -/
theorem hdr2samp_history_iff (hdr : PerfRecord) (mask : ℕ) :
    (∀ history history', SameSample (hdr2samp (decodeAll history) hdr mask)
      (hdr2samp (decodeAll history') hdr mask)) ↔
    IsRejected hdr mask ∨ ∀ f ∈ consumedFields, f.isIn mask = true := by
  constructor
  · intro hall
    by_cases hrej : IsRejected hdr mask
    · exact .inl hrej
    · refine .inr fun f hf => ?_
      by_contra hnot
      have habsent : f.isIn mask = false := Bool.not_eq_true _ ▸ hnot
      have hreturned : (hdr2samp (decodeAll []) hdr mask).2 = true := by
        rw [← Bool.not_eq_false, hdr2samp_eq_false_iff]
        exact hrej
      have hsame := (hall [] [(twoRecord, f.bit)]).2 hreturned f hf
      rw [part_hdr2samp_of_absent habsent, part_hdr2samp_of_absent habsent] at hsame
      exact part_twoRecord_ne f hf hsame
  · rintro (hrej | hin) history history'
    · have hfalse := (hdr2samp_eq_false_iff (decodeAll history)).mpr hrej
      refine ⟨hfalse.trans ((hdr2samp_eq_false_iff (decodeAll history')).mpr hrej).symm, ?_⟩
      intro htrue
      rw [hfalse] at htrue
      cases htrue
    · obtain ⟨hrejected, hparts⟩ := foldl_agree hdr mask fieldOrder
        ⟨{ decodeAll history with header := wordAt hdr.bytes 0 }, 0, false⟩
        ⟨{ decodeAll history' with header := wordAt hdr.bytes 0 }, 0, false⟩ rfl rfl
      refine ⟨congrArg Bool.not hrejected, fun hok f hf => ?_⟩
      have hmem : ∀ f ∈ consumedFields, f ∈ fieldOrder := by decide
      exact hparts ((Bool.not_eq_true' _).mp hok) f (.inr ⟨hmem f hf, hin f hf⟩)

/-- The address that `ddprof_pr_sample` registers an allocation for, if the watcher sums live
allocations. -/
def registeredAddress (sample : PerfEventSample) : Option ℕ :=
  if sample.addr ≠ 0 then some sample.addr else none

/-- An allocation sample, with its address. -/
def allocationRecord : PerfRecord where
  addr := 4096
  bytes := Circular.leBytes 8 0 ++ Circular.leBytes 8 0xdead0

/-- A sample with the pid and the time only, decoded after the allocation sample and first of
all: an allocation is registered for the address of the other record. -/
theorem hdr2samp_addr_leaks :
    let mask := PerfSample.tid ||| PerfSample.time
    SampleField.addr.isIn mask = false ∧
      registeredAddress (hdr2samp (decodeAll []) twoRecord mask).1 = none ∧
      registeredAddress (hdr2samp (decodeAll [(allocationRecord, PerfSample.addr)]) twoRecord
        mask).1 = some 0xdead0 := by
  decide +kernel

end Ddprof
