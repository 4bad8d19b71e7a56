import Ddprof.Lib.Circular
import Mathlib.Data.List.GetD

/-!
Reading a buffer of bytes from its front.

Each function returns what it has read and the bytes after it, and `none` when it would read
outside the buffer. What is read is characterised by how the buffer is put together.
-/

namespace ByteReader

open Circular (Byte leBytes leWord)

variable {w n : ℕ} {buf rest : List Byte}

/-! ### Bytes -/

def read (n : ℕ) (buf : List Byte) : Option (List Byte × List Byte) :=
  if n ≤ buf.length then some (buf.take n, buf.drop n) else none

theorem read_eq_some {bs : List Byte} :
    read n buf = some (bs, rest) ↔ buf = bs ++ rest ∧ bs.length = n := by
  rw [read]
  constructor
  · intro h
    split_ifs at h with hn
    obtain ⟨rfl, rfl⟩ := Prod.mk.inj (Option.some.inj h)
    exact ⟨(List.take_append_drop n buf).symm, List.length_take_of_le hn⟩
  · rintro ⟨rfl, rfl⟩
    rw [if_pos (by simp), List.take_left, List.drop_left]

theorem read_eq_none : read n buf = none ↔ buf.length < n := by
  rw [read]
  split_ifs with hn
  · exact iff_of_false nofun (Nat.not_lt.mpr hn)
  · exact iff_of_true rfl (Nat.lt_of_not_le hn)

@[simp] theorem read_append (bs rest : List Byte) :
    read bs.length (bs ++ rest) = some (bs, rest) :=
  read_eq_some.mpr ⟨rfl, rfl⟩

/-! ### Integers -/

def bytes (x : BitVec w) : List Byte := leBytes (w / 8) x.toNat

@[simp] theorem length_bytes (x : BitVec w) : (bytes x).length = w / 8 :=
  Circular.length_leBytes _ _

theorem leWord_bytes (hw : 8 ∣ w) (x : BitVec w) : leWord (bytes x) = x.toNat := by
  obtain ⟨k, rfl⟩ := hw
  rw [bytes, Circular.leWord_leBytes, Nat.mul_div_cancel_left k (by decide)]
  exact Nat.mod_eq_of_lt (Nat.pow_mul 2 8 k ▸ x.isLt)

def load (w : ℕ) (buf : List Byte) : Option (BitVec w × List Byte) :=
  (read (w / 8) buf).map fun r => (BitVec.ofNat w (leWord r.1), r.2)

theorem load_eq_some (hw : 8 ∣ w) {x : BitVec w} :
    load w buf = some (x, rest) ↔ buf = bytes x ++ rest := by
  rw [load, Option.map_eq_some_iff]
  constructor
  · rintro ⟨⟨bs, rest'⟩, hread, heq⟩
    obtain ⟨rfl, rfl⟩ := Prod.mk.inj heq
    obtain ⟨rfl, hlength⟩ := read_eq_some.mp hread
    have hword : leWord bs < 2 ^ w := by
      obtain ⟨k, rfl⟩ := hw
      rw [Nat.pow_mul, ← Nat.mul_div_cancel_left k (show 0 < 8 by decide), ← hlength]
      exact Circular.leWord_lt bs
    simp only
    rw [bytes, BitVec.toNat_ofNat, Nat.mod_eq_of_lt hword, ← hlength, Circular.leBytes_leWord]
  · rintro rfl
    refine ⟨(bytes x, rest), read_eq_some.mpr ⟨rfl, length_bytes x⟩, ?_⟩
    rw [leWord_bytes hw, BitVec.ofNat_toNat, BitVec.setWidth_eq]

theorem load_eq_none : load w buf = none ↔ buf.length < w / 8 := by
  rw [load, Option.map_eq_none_iff, read_eq_none]

theorem exists_bytes (hw : 8 ∣ w) (h : w / 8 ≤ buf.length) :
    ∃ (x : BitVec w) (rest : List Byte), buf = bytes x ++ rest ∧
      buf.length = w / 8 + rest.length := by
  obtain ⟨⟨x, rest⟩, hload⟩ := Option.ne_none_iff_exists'.mp
    (mt load_eq_none.mp (Nat.not_lt.mpr h))
  obtain rfl := (load_eq_some hw).mp hload
  exact ⟨x, rest, rfl, by rw [List.length_append, length_bytes]⟩

@[simp] theorem load_bytes (hw : 8 ∣ w) (x : BitVec w) (rest : List Byte) :
    load w (bytes x ++ rest) = some (x, rest) :=
  (load_eq_some hw).mpr rfl

/-! ### Integers at a place -/

/-- The integer of `k` bytes from byte `i` on; bytes that are not there count as zero. -/
def leWordAt (buf : List Byte) (i k : ℕ) : ℕ := leWord ((buf.drop i).take k)

theorem leWordAt_append (bs buf : List Byte) (i k : ℕ) :
    leWordAt (bs ++ buf) (bs.length + i) k = leWordAt buf i k := by
  rw [leWordAt, List.drop_append, leWordAt, List.drop_eq_nil_of_le (Nat.le_add_right _ _),
    List.nil_append, Nat.add_sub_cancel_left]

theorem leWordAt_append_left {bs : List Byte} {i k : ℕ} (h : i + k ≤ bs.length) (rest : List Byte) :
    leWordAt (bs ++ rest) i k = leWordAt bs i k := by
  rw [leWordAt, List.drop_append_of_le_length (by omega),
    List.take_append_of_le_length (by rw [List.length_drop]; omega), leWordAt]

theorem leWordAt_bytes_zero {k : ℕ} (hw : 8 ∣ w) (hk : w / 8 = k) (x : BitVec w)
    (rest : List Byte) : leWordAt (bytes x ++ rest) 0 k = x.toNat := by
  subst hk
  rw [leWordAt, List.drop_zero, List.take_left' (length_bytes x), leWord_bytes hw]

/-- The place and the width are hypotheses, so that they can be numerals. -/
theorem leWordAt_bytes {bs : List Byte} {i k : ℕ} (hw : 8 ∣ w) (hk : w / 8 = k)
    (hi : bs.length = i) (x : BitVec w) (rest : List Byte) :
    leWordAt (bs ++ (bytes x ++ rest)) i k = x.toNat := by
  rw [← hi, ← Nat.add_zero bs.length, leWordAt_append, leWordAt_bytes_zero hw hk]

theorem leWordAt_zero (buf : List Byte) (i : ℕ) : leWordAt buf i 0 = 0 := by
  rw [leWordAt, List.take_zero, leWord]

theorem leWordAt_succ (buf : List Byte) (i k : ℕ) :
    leWordAt buf i (k + 1) = (buf.getD i 0).toNat + 256 * leWordAt buf (i + 1) k := by
  rw [leWordAt, leWordAt]
  by_cases hi : i < buf.length
  · rw [List.drop_eq_getElem_cons hi, List.take_succ_cons, leWord, List.getD_eq_getElem _ _ hi]
  · rw [List.drop_eq_nil_of_le (Nat.not_lt.mp hi), List.drop_eq_nil_of_le (by omega),
      List.getD_eq_default _ _ (Nat.not_lt.mp hi)]
    simp [leWord]

/-! ### Strings -/

def cString : List Byte → Option (List Byte × List Byte)
  | [] => none
  | b :: buf => if b = 0 then some ([], buf) else (cString buf).map fun r => (b :: r.1, r.2)

theorem cString_eq_some {s : List Byte} :
    cString buf = some (s, rest) ↔ buf = s ++ 0 :: rest ∧ 0 ∉ s := by
  induction buf generalizing s with
  | nil => simp [cString]
  | cons b buf ih =>
    rw [cString]
    split_ifs with hb
    · subst hb
      cases s with
      | nil => simp
      | cons c s =>
        refine iff_of_false (by simp) fun h => h.2 ?_
        rw [(List.cons.inj h.1).1]
        exact List.mem_cons_self
    · rw [Option.map_eq_some_iff]
      cases s with
      | nil => exact iff_of_false (by simp) fun h => hb (List.cons.inj h.1).1
      | cons c s =>
        constructor
        · rintro ⟨⟨s', rest'⟩, hs', heq⟩
          obtain ⟨hs, rfl⟩ := Prod.mk.inj heq
          obtain ⟨rfl, rfl⟩ := List.cons.inj hs
          obtain ⟨rfl, hmem⟩ := ih.mp hs'
          exact ⟨rfl, List.not_mem_cons_of_ne_of_not_mem (Ne.symm hb) hmem⟩
        · rintro ⟨heq, hmem⟩
          obtain ⟨rfl, rfl⟩ := List.cons.inj heq
          exact ⟨(s, rest), ih.mpr ⟨rfl, fun h => hmem (List.mem_cons_of_mem _ h)⟩, rfl⟩

/-! ### Items -/

section Many

variable {α : Type}

def many (item : List Byte → Option (α × List Byte)) :
    ℕ → List Byte → Option (List α × List Byte)
  | 0, buf => some ([], buf)
  | n + 1, buf => do
    let (x, buf) ← item buf
    let (xs, buf) ← many item n buf
    return (x :: xs, buf)

/-- When one item is read if and only if the buffer starts with its encoding, so are many. -/
theorem many_eq_some {item : List Byte → Option (α × List Byte)} {encode : α → List Byte}
    {P : α → Prop}
    (hitem : ∀ buf x rest, item buf = some (x, rest) ↔ buf = encode x ++ rest ∧ P x)
    {xs : List α} :
    many item n buf = some (xs, rest) ↔
      xs.length = n ∧ buf = xs.flatMap encode ++ rest ∧ ∀ x ∈ xs, P x := by
  induction n generalizing buf rest xs with
  | zero =>
    rw [many]
    cases xs with
    | nil => simp
    | cons x xs => simp
  | succ n ih =>
    simp only [many, bind, Option.bind_eq_some_iff, Prod.exists, hitem, ih, pure,
      Option.some.injEq, Prod.mk.injEq]
    constructor
    · rintro ⟨x, _, ⟨rfl, hx⟩, xs, rest', ⟨hlength, rfl, hxs⟩, rfl, rfl⟩
      exact ⟨congrArg Nat.succ hlength, by simp, List.forall_mem_cons.mpr ⟨hx, hxs⟩⟩
    · rintro ⟨hlength, rfl, hall⟩
      cases xs with
      | nil => cases hlength
      | cons x xs =>
        obtain ⟨hx, hxs⟩ := List.forall_mem_cons.mp hall
        exact ⟨x, _, ⟨by simp, hx⟩, xs, rest, ⟨Nat.succ.inj hlength, rfl, hxs⟩, rfl, rfl⟩

end Many

end ByteReader
