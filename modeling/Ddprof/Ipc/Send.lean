import Mathlib.Data.List.TakeWhile
import Mathlib.Tactic

/-!
Sending on a socket (`ipc.cc`).

The kernel takes part of a buffer, or reports an error, and interrupted calls are made again. What
it will answer to the calls to come is a schedule. A call that is still waiting for answers when
the schedule ends has not returned. Descriptors are sent with the first part of the buffer.

A partial send with descriptors refuses arguments by returning `-1` as a `size_t`, without setting
the error code. To its caller this is more than the size of any buffer.
-/

namespace Ddprof

namespace Ipc

/-! ### The kernel -/

def kMaxFD : ℕ := 253

/-- Buffers have their size in a `size_t`. -/
structure ConstBuffer where
  bytes : List UInt8
  size_lt : bytes.length < 2 ^ 64

namespace ConstBuffer

def size (buffer : ConstBuffer) : ℕ := buffer.bytes.length

def remaining (buffer : ConstBuffer) (offset : ℕ) : ConstBuffer where
  bytes := buffer.bytes.drop (min offset buffer.size)
  size_lt := by
    rw [List.length_drop]
    exact (Nat.sub_le _ _).trans_lt buffer.size_lt

end ConstBuffer

inductive Answer
  /-- One byte and `n` more are taken, or all if these are fewer. -/
  | sent (n : ℕ)
  | error (errno : ℕ+)
  deriving DecidableEq, Repr

def eintr : ℕ := 4

def Answer.isInterrupt : Answer → Bool
  | .sent _ => false
  | .error errno => (errno : ℕ) = eintr

@[ext] structure Wire where
  bytes : List UInt8 := []
  fds : List ℤ := []
  deriving DecidableEq, Repr

def Wire.push (wire : Wire) (bytes : List UInt8) (fds : List ℤ) : Wire :=
  ⟨wire.bytes ++ bytes, wire.fds ++ fds⟩

/-- One call of `send` or `sendmsg`: its result, and `errno`. -/
def transmit (buffer : ConstBuffer) (fds : List ℤ) (wire : Wire) : Answer → ℤ × ℕ × Wire
  | .sent n =>
    let len := min (n + 1) buffer.size
    (len, 0, wire.push (buffer.bytes.take len) fds)
  | .error errno => (-1, errno, wire)

def transmitRetry (buffer : ConstBuffer) (fds : List ℤ) (wire : Wire) :
    List Answer → Option (ℤ × ℕ × Wire × List Answer)
  | [] => none
  | answer :: schedule =>
    let (ret, errno, wire) := transmit buffer fds wire answer
    if ret < 0 ∧ errno = eintr then transmitRetry buffer fds wire schedule
    else some (ret, errno, wire, schedule)

/-! ### Sending -/

/-- The value of a `std::error_code`, which is clear if it is 0. -/
abbrev ErrorCode := ℕ

def errorWrapper (returnValue : ℤ) (errno : ℕ) : ErrorCode := if returnValue < 0 then errno else 0

structure SendState where
  ec : ErrorCode
  wire : Wire
  schedule : List Answer
  deriving DecidableEq, Repr

/-- What both partial sends do with valid arguments. -/
def attempt (buffer : ConstBuffer) (fds : List ℤ) (s : SendState) : Option (ℕ × SendState) :=
  (transmitRetry buffer fds s.wire s.schedule).map fun (ret, errno, wire, schedule) =>
    let ec := errorWrapper ret errno
    (if ec ≠ 0 then 0 else ret.toNat, ⟨ec, wire, schedule⟩)

def sendPartial (buffer : ConstBuffer) (s : SendState) : Option (ℕ × SendState) :=
  attempt buffer [] s

/-- The loop of `send`. Every round needs an answer of the schedule. -/
def sendLoop (buffer : ConstBuffer) : ℕ → ℕ → SendState → Option SendState
  | 0, _, _ => none
  | rounds + 1, written, s =>
    (sendPartial (buffer.remaining written) s).bind fun (n, s) =>
      let written := (written + n) % 2 ^ 64
      if s.ec = 0 ∧ written < buffer.size then sendLoop buffer rounds written s else some s

def send (buffer : ConstBuffer) (s : SendState) : Option SendState :=
  sendLoop buffer s.schedule.length 0 s

def sendPartialFds (buffer : ConstBuffer) (fds : List ℤ) (s : SendState) :
    Option (ℕ × SendState) :=
  if kMaxFD < fds.length ∨ buffer.bytes = [] then some (2 ^ 64 - 1, s) else attempt buffer fds s

def sendFds (buffer : ConstBuffer) (fds : List ℤ) (s : SendState) : Option SendState :=
  (sendPartialFds buffer fds s).bind fun (written, s) =>
    if s.ec = 0 ∧ written < buffer.size then send (buffer.remaining written) s else some s

/-! ### One attempt -/

/-- The answers that are not interruptions. -/
def attempts (schedule : List Answer) : ℕ := schedule.countP fun answer => !answer.isInterrupt

section Attempt

variable {buffer : ConstBuffer} {fds : List ℤ} {s s' : SendState} {n : ℕ}

inductive Attempt (buffer : ConstBuffer) (fds : List ℤ) (s : SendState) (rest : List Answer) :
    ℕ → SendState → Prop
  | sent (len : ℕ) (hlen : len ≤ buffer.size) (hpos : 0 < buffer.size → 0 < len) :
      Attempt buffer fds s rest len ⟨0, s.wire.push (buffer.bytes.take len) fds, rest⟩
  | failed (ec : ErrorCode) (hec : ec ≠ 0) : Attempt buffer fds s rest 0 ⟨ec, s.wire, rest⟩

theorem transmitRetry_eq (buffer : ConstBuffer) (fds : List ℤ) (wire : Wire)
    (schedule : List Answer) :
    transmitRetry buffer fds wire schedule =
      match schedule.dropWhile Answer.isInterrupt with
      | [] => none
      | answer :: rest =>
        let (ret, errno, wire) := transmit buffer fds wire answer
        some (ret, errno, wire, rest) := by
  induction schedule with
  | nil => rfl
  | cons answer schedule ih =>
    cases answer with
    | sent n => simp [transmitRetry, transmit, Answer.isInterrupt]; omega
    | error errno =>
      by_cases herrno : (errno : ℕ) = eintr
      · simp [transmitRetry, transmit, Answer.isInterrupt, herrno, ih]
      · simp [transmitRetry, transmit, Answer.isInterrupt, herrno]

theorem attempt_of_answer (buffer : ConstBuffer) (fds : List ℤ) {answer : Answer}
    {rest : List Answer}
    (hschedule : s.schedule.dropWhile Answer.isInterrupt = answer :: rest) :
    ∃ n s', attempt buffer fds s = some (n, s') ∧ Attempt buffer fds s rest n s' := by
  rw [attempt, transmitRetry_eq, hschedule]
  cases answer with
  | sent n =>
    refine ⟨_, _, rfl, ?_⟩
    have hret : ¬ ((min (n + 1) buffer.size : ℕ) : ℤ) < 0 := by omega
    simp only [errorWrapper, hret, if_false, ne_eq, not_true, Int.toNat_natCast]
    exact .sent _ (Nat.min_le_right _ _) fun hpos => by omega
  | error errno =>
    refine ⟨_, _, rfl, ?_⟩
    have hec : errorWrapper (-1) errno = errno := rfl
    simp only [hec, ne_eq, errno.ne_zero, not_false_iff, if_true]
    exact .failed errno errno.ne_zero

theorem attempts_dropWhile {answer : Answer} {schedule rest : List Answer}
    (h : schedule.dropWhile Answer.isInterrupt = answer :: rest) :
    attempts schedule = attempts rest + 1 ∧ rest.length < schedule.length := by
  have hanswer : answer.isInterrupt = false := by
    have := List.head?_dropWhile_not Answer.isInterrupt schedule
    rwa [h] at this
  have hsplit := List.takeWhile_append_dropWhile (p := Answer.isInterrupt) (l := schedule)
  have hinterrupts : (schedule.takeWhile Answer.isInterrupt).countP (fun a => !a.isInterrupt) = 0 :=
    List.countP_eq_zero.mpr fun a ha => by simp [List.mem_takeWhile_imp ha]
  rw [h] at hsplit
  rw [← hsplit]
  refine ⟨?_, by simp; omega⟩
  rw [attempts, List.countP_append, hinterrupts, List.countP_cons_of_pos (by simp [hanswer])]
  simp [attempts]

/-- An attempt that returns has used one answer that is not an interruption. -/
theorem exists_attempt (h : attempt buffer fds s = some (n, s')) :
    ∃ rest, Attempt buffer fds s rest n s' ∧ attempts s.schedule = attempts rest + 1 ∧
      rest.length < s.schedule.length := by
  cases hschedule : s.schedule.dropWhile Answer.isInterrupt with
  | nil =>
    rw [attempt, transmitRetry_eq, hschedule] at h
    cases h
  | cons answer rest =>
    obtain ⟨n', s'', heq, hattempt⟩ := attempt_of_answer buffer fds hschedule
    rw [heq] at h
    obtain ⟨rfl, rfl⟩ := Prod.mk.inj (Option.some.inj h)
    exact ⟨rest, hattempt, attempts_dropWhile hschedule⟩

theorem attempt_returns (buffer : ConstBuffer) (fds : List ℤ)
    (h : 0 < attempts s.schedule) :
    ∃ n s', attempt buffer fds s = some (n, s') := by
  cases hschedule : s.schedule.dropWhile Answer.isInterrupt with
  | nil =>
    rw [List.dropWhile_eq_nil_iff] at hschedule
    have hzero : attempts s.schedule = 0 :=
      List.countP_eq_zero.mpr fun a ha => by simp [hschedule a ha]
    omega
  | cons answer rest =>
    obtain ⟨n, s', heq, -⟩ := attempt_of_answer buffer fds hschedule
    exact ⟨n, s', heq⟩

end Attempt

/-! ### All of the buffer -/

theorem Wire.push_push (wire : Wire) (bytes bytes' : List UInt8) (fds fds' : List ℤ) :
    (wire.push bytes fds).push bytes' fds' = wire.push (bytes ++ bytes') (fds ++ fds') := by
  simp [Wire.push]

section Loop

variable {buffer : ConstBuffer} {fds : List ℤ} {s s' : SendState} {written rounds : ℕ}

theorem ConstBuffer.remaining_bytes (hwritten : written ≤ buffer.size) :
    (buffer.remaining written).bytes = buffer.bytes.drop written := by
  show buffer.bytes.drop (min written buffer.size) = _
  rw [min_eq_left hwritten]

theorem ConstBuffer.remaining_size (hwritten : written ≤ buffer.size) :
    (buffer.remaining written).size = buffer.size - written := by
  rw [ConstBuffer.size, ConstBuffer.remaining_bytes hwritten, List.length_drop]
  rfl

/-- One round of the loop: it goes on behind what has been sent, or it returns. -/
theorem sendLoop_succ (hwritten : written ≤ buffer.size)
    (h : sendLoop buffer (rounds + 1) written s = some s') :
    ∃ rest len, written + len ≤ buffer.size ∧
      ((sendLoop buffer rounds (written + len)
          ⟨0, s.wire.push ((buffer.bytes.drop written).take len) [], rest⟩ = some s') ∨
        (s'.wire = s.wire.push ((buffer.bytes.drop written).take len) [] ∧
          (s'.ec = 0 → written + len = buffer.size))) := by
  obtain ⟨⟨n, s₁⟩, hpartial, h⟩ := Option.bind_eq_some_iff.mp h
  obtain ⟨rest, hattempt, -⟩ := exists_attempt hpartial
  have hsize := buffer.size_lt
  cases hattempt with
  | sent _ hlen hpos =>
    rw [ConstBuffer.remaining_size hwritten] at hlen
    rw [ConstBuffer.remaining_bytes hwritten] at h
    have hle : written + n ≤ buffer.size := by omega
    have hmod : (written + n) % 2 ^ 64 = written + n :=
      Nat.mod_eq_of_lt (hle.trans_lt hsize)
    simp only [hmod, true_and] at h
    refine ⟨rest, n, hle, ?_⟩
    split_ifs at h with hlt
    · exact .inl h
    · obtain rfl := Option.some.inj h
      exact .inr ⟨rfl, fun _ => by omega⟩
  | failed ec hec =>
    simp only [hec, false_and, if_false] at h
    obtain rfl := Option.some.inj h
    exact ⟨rest, 0, hwritten, .inr ⟨by simp [Wire.push], fun h => absurd h hec⟩⟩

/-- What has been handed over when the loop returns is a part of the buffer from where it started,
and all of it if the error code is clear. -/
theorem sendLoop_spec (hwritten : written ≤ buffer.size)
    (h : sendLoop buffer rounds written s = some s') :
    ∃ len, s'.wire = s.wire.push ((buffer.bytes.drop written).take len) [] ∧
      (s'.ec = 0 → written + len = buffer.size) := by
  induction rounds generalizing written s with
  | zero => cases h
  | succ rounds ih =>
    obtain ⟨rest, len, hle, hloop | hreturn⟩ := sendLoop_succ hwritten h
    · obtain ⟨len', hwire, hec⟩ := ih hle hloop
      refine ⟨len + len', ?_, fun h => by have := hec h; omega⟩
      rw [hwire, Wire.push_push, List.take_add, List.drop_drop]
      rfl
    · exact ⟨len, hreturn⟩

theorem sendLoop_returns (hwritten : written ≤ buffer.size) (hpos : 0 < attempts s.schedule)
    (hattempts : buffer.size - written ≤ attempts s.schedule)
    (hrounds : s.schedule.length ≤ rounds) :
    ∃ s', sendLoop buffer rounds written s = some s' := by
  induction rounds generalizing written s with
  | zero =>
    have hnil := List.length_eq_zero_iff.mp (Nat.le_zero.mp hrounds)
    rw [hnil] at hpos
    cases hpos
  | succ rounds ih =>
    obtain ⟨n, s₁, hpartial⟩ := attempt_returns (buffer.remaining written) [] hpos
    obtain ⟨rest, hattempt, hrest, hlength⟩ := exists_attempt hpartial
    have hsize := buffer.size_lt
    have hremaining := ConstBuffer.remaining_size hwritten
    rw [sendLoop, sendPartial, hpartial, Option.bind_some]
    cases hattempt with
    | sent _ hlen hone =>
      have hle : written + n ≤ buffer.size := by omega
      have hmod : (written + n) % 2 ^ 64 = written + n :=
        Nat.mod_eq_of_lt (hle.trans_lt hsize)
      simp only [hmod, true_and]
      split_ifs with hlt
      · have hlen := hone (by omega)
        exact ih hle (show 0 < attempts rest by omega)
          (show _ ≤ attempts rest by omega) (show rest.length ≤ rounds by omega)
      · exact ⟨_, rfl⟩
    | failed ec hec => exact ⟨_, if_neg fun h => hec h.1⟩

/-- A send without descriptors that leaves the error code clear has handed over the buffer. -/
theorem send_complete (h : send buffer s = some s') (hec : s'.ec = 0) :
    s'.wire = s.wire.push buffer.bytes [] := by
  obtain ⟨len, hwire, hall⟩ := sendLoop_spec (Nat.zero_le _) h
  have hsize := hall hec
  rw [Nat.zero_add] at hsize
  rw [hwire, List.drop_zero, hsize, ConstBuffer.size, List.take_length]

/-! ### Descriptors -/

def Refused (buffer : ConstBuffer) (fds : List ℤ) : Prop :=
  kMaxFD < fds.length ∨ buffer.bytes = []

theorem sendFds_of_refused (h : Refused buffer fds) (s : SendState) :
    sendFds buffer fds s = some s := by
  have hsize := buffer.size_lt
  have hlt : ¬ (2 ^ 64 - 1 < buffer.size) := by
    rw [ConstBuffer.size]
    omega
  rw [sendFds, sendPartialFds, if_pos (show kMaxFD < _ ∨ _ from h), Option.bind_some]
  simp only [hlt, and_false, if_false]

theorem sendFds_spec (hok : ¬ Refused buffer fds) (h : sendFds buffer fds s = some s')
    (hec : s'.ec = 0) : s'.wire = s.wire.push buffer.bytes fds := by
  rw [sendFds, sendPartialFds, if_neg (show ¬ (kMaxFD < _ ∨ _) from hok)] at h
  obtain ⟨⟨n, s₁⟩, hpartial, h⟩ := Option.bind_eq_some_iff.mp h
  obtain ⟨rest, hattempt, -⟩ := exists_attempt hpartial
  cases hattempt with
  | sent _ hlen hpos =>
    simp only [true_and] at h
    split_ifs at h with hlt
    · rw [send_complete h hec, Wire.push_push, ConstBuffer.remaining_bytes hlen,
        List.take_append_drop, List.append_nil]
    · obtain rfl := Option.some.inj h
      have hall : buffer.bytes.take n = buffer.bytes :=
        List.take_of_length_le (not_lt.mp hlt)
      rw [hall]
  | failed ec hne =>
    simp only [hne, false_and, if_false] at h
    obtain rfl := Option.some.inj h
    exact absurd hec hne

theorem sendFds_returns (fds : List ℤ) (hpos : 0 < attempts s.schedule)
    (hattempts : buffer.size ≤ attempts s.schedule) : ∃ s', sendFds buffer fds s = some s' := by
  by_cases href : Refused buffer fds
  · exact ⟨s, sendFds_of_refused href s⟩
  · obtain ⟨n, s₁, hpartial⟩ := attempt_returns buffer fds hpos
    obtain ⟨rest, hattempt, hrest, hlength⟩ := exists_attempt hpartial
    have hbuffer : 0 < buffer.size := by
      rw [ConstBuffer.size, List.length_pos_iff]
      exact fun h => href (.inr h)
    rw [sendFds, sendPartialFds, if_neg (show ¬ (kMaxFD < _ ∨ _) from href), hpartial,
      Option.bind_some]
    cases hattempt with
    | sent _ hlen hone =>
      have hlen' := hone hbuffer
      have hremaining := ConstBuffer.remaining_size hlen
      simp only [true_and]
      split_ifs with hlt
      · exact sendLoop_returns (Nat.zero_le _) (show 0 < attempts rest by omega)
          (show _ ≤ attempts rest by omega) le_rfl
      · exact ⟨_, rfl⟩
    | failed ec hec => exact ⟨_, if_neg fun h => hec h.1⟩

end Loop

/-- A send with descriptors returns once there are as many answers as bytes that are not
interruptions. If it then leaves the error code clear, the bytes of the buffer and the descriptors
have been handed over, exactly if the code was set before, or there are not too many descriptors
and no descriptors without bytes. -/
theorem sendFds_complete_iff (ec : ErrorCode) (buffer : ConstBuffer) (fds : List ℤ) :
    (∀ wire schedule, 0 < attempts schedule → buffer.size ≤ attempts schedule →
      ∃ s', sendFds buffer fds ⟨ec, wire, schedule⟩ = some s') ∧
    ((∀ wire schedule s', sendFds buffer fds ⟨ec, wire, schedule⟩ = some s' → s'.ec = 0 →
      s'.wire = wire.push buffer.bytes fds) ↔
        ec ≠ 0 ∨ (fds.length ≤ kMaxFD ∧ (buffer.bytes ≠ [] ∨ fds = []))) := by
  refine ⟨fun wire schedule hpos hattempts =>
    sendFds_returns (s := ⟨ec, wire, schedule⟩) fds hpos hattempts, ?_⟩
  by_cases href : Refused buffer fds
  · -- nothing is sent, and the error code stays as it is
    constructor
    · intro h
      by_cases hec : ec = 0
      · right
        have hwire := h ⟨[], []⟩ [] _ (sendFds_of_refused href _) hec
        obtain ⟨hbytes, rfl⟩ := Wire.mk.inj hwire
        exact ⟨Nat.zero_le _, .inr rfl⟩
      · exact .inl hec
    · intro h wire schedule s' hsend hec'
      rw [sendFds_of_refused href] at hsend
      obtain rfl := Option.some.inj hsend
      obtain ⟨hlen, hne⟩ := h.resolve_left (not_not.mpr hec')
      have hnil : buffer.bytes = [] := href.resolve_left (not_lt.mpr hlen)
      have hfds : fds = [] := hne.resolve_left (not_not.mpr hnil)
      simp [Wire.push, hnil, hfds]
  · refine iff_of_true (fun wire schedule s' hsend hec => sendFds_spec href hsend hec) (.inr ?_)
    have hboth := not_or.mp href
    exact ⟨not_lt.mp hboth.1, .inl hboth.2⟩

/-- An interruption, then two parts. -/
theorem sendFds_complete_iff_parts :
    let buffer : ConstBuffer := ⟨[1, 2, 3], by decide⟩
    (sendFds buffer [7] ⟨0, {}, [.error 4, .sent 0, .error 4, .sent 8]⟩).map SendState.wire =
      some ⟨[1, 2, 3], [7]⟩ := by
  intro buffer
  obtain ⟨-, hiff⟩ := sendFds_complete_iff 0 buffer [7]
  have hcomplete := hiff.mpr (.inr ⟨by decide, .inl (by decide)⟩)
  cases hsend : sendFds buffer [7] ⟨0, {}, [.error 4, .sent 0, .error 4, .sent 8]⟩ with
  | none => exact absurd hsend (by decide)
  | some s' =>
    have hec : (sendFds buffer [7] ⟨0, {}, [.error 4, .sent 0, .error 4, .sent 8]⟩).map
        SendState.ec = some 0 := by decide
    rw [hsend] at hec
    exact congrArg some (hcomplete {} _ s' hsend (Option.some.inj hec))

/-- Descriptors without bytes, and one descriptor too many: the send returns at once, with a clear
error code, and nothing has been handed over. -/
theorem sendFds_refused_clear :
    sendFds ⟨[], by decide⟩ [7] ⟨0, {}, []⟩ = some ⟨0, {}, []⟩ ∧
      sendFds ⟨[1], by decide⟩ (List.replicate 254 7) ⟨0, {}, []⟩ = some ⟨0, {}, []⟩ :=
  ⟨sendFds_of_refused (.inr rfl) _,
    sendFds_of_refused (.inl (by rw [List.length_replicate]; decide)) _⟩

end Ipc

end Ddprof
