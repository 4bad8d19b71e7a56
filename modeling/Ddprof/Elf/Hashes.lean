import Mathlib.Data.BitVec
import Mathlib.Tactic

/-!
The two hash functions of symbol names.

The linker hashes a name as a string of unsigned bytes. Here a name is a string of `char`, which is
signed on x86-64, so that a byte from 128 on is added as a negative number. The two agree on names
without such a byte. With one, the first hash is off by 256 times a sum of powers of 33, one power
for each such byte by its distance from the end.
-/

namespace Ddprof

abbrev ElfName := List (BitVec 8)

/-- The hash of `DT_GNU_HASH`. -/
def gnuHash (name : ElfName) : BitVec 32 :=
  name.foldl (fun (h : BitVec 32) c => (h <<< 5) + h + c.signExtend 32) 5381#32

/-- The hash of `DT_HASH`. -/
def elfHash (name : ElfName) : BitVec 32 :=
  name.foldl (fun (h : BitVec 32) c =>
    let h := (h <<< 4) + c.signExtend 32
    let g := h &&& 0xf0000000#32
    h ^^^ (g >>> 24)) 0 &&& 0x0fffffff#32

/-! ### The hashes of the linker -/

/-- The hash of the GNU hash tables: `h * 33 + c` over the bytes. -/
def linkerGnuHash (name : ElfName) : BitVec 32 :=
  name.foldl (fun (h : BitVec 32) c => h * 33#32 + c.setWidth 32) 5381#32

def systemVHash (name : ElfName) : BitVec 32 :=
  name.foldl (fun (h : BitVec 32) c =>
    let h := (h <<< 4) + c.setWidth 32
    let g := h &&& 0xf0000000#32
    (h ^^^ (g >>> 24)) &&& ~~~g) 0

/-! ### Bytes that are negative -/

def signBit (c : BitVec 8) : ℕ := if 128 ≤ c.toNat then 1 else 0

/-- The sum of the powers of 33 of the bytes from 128 on. -/
def signWeight (name : ElfName) : ℕ := name.foldl (fun w c => w * 33 + signBit c) 0

def signCount (name : ElfName) : ℕ := (name.map signBit).sum

theorem setWidth_eq_signExtend_add (c : BitVec 8) :
    c.setWidth 32 = c.signExtend 32 + BitVec.ofNat 32 (256 * signBit c) := by
  revert c
  decide

theorem signExtend_of_lt {c : BitVec 8} (h : c.toNat < 128) :
    c.signExtend 32 = c.setWidth 32 := by
  rw [setWidth_eq_signExtend_add, signBit, if_neg (not_le.mpr h)]
  simp

/-- How far the hash of the linker is ahead. -/
theorem linkerGnuHash_eq (name : ElfName) :
    linkerGnuHash name = gnuHash name + BitVec.ofNat 32 (256 * signWeight name) := by
  -- the same for the loops from any hash and any weight
  suffices h : ∀ (h : BitVec 32) (w : ℕ),
      name.foldl (fun (h : BitVec 32) c => h * 33#32 + c.setWidth 32)
          (h + BitVec.ofNat 32 (256 * w)) =
        name.foldl (fun (h : BitVec 32) c => (h <<< 5) + h + c.signExtend 32) h +
          BitVec.ofNat 32 (256 * name.foldl (fun w c => w * 33 + signBit c) w) by
    have hstart := h 5381#32 0
    simpa [linkerGnuHash, gnuHash, signWeight] using hstart
  induction name with
  | nil => exact fun _ _ => rfl
  | cons c name ih =>
    intro h w
    have hstep : (h + BitVec.ofNat 32 (256 * w)) * 33#32 + c.setWidth 32 =
        (h <<< 5) + h + c.signExtend 32 + BitVec.ofNat 32 (256 * (w * 33 + signBit c)) := by
      have hshift : (h <<< 5) = h * 32#32 := by
        apply BitVec.eq_of_toNat_eq
        rw [BitVec.toNat_shiftLeft, Nat.shiftLeft_eq, BitVec.toNat_mul]
        rfl
      rw [setWidth_eq_signExtend_add, hshift, Nat.mul_add, ← Nat.mul_assoc, BitVec.ofNat_add,
        BitVec.ofNat_mul (256 * w) 33, show 33#32 = 1 + 32#32 from rfl]
      ring
    rw [List.foldl_cons, List.foldl_cons, List.foldl_cons, hstep]
    exact ih _ _

theorem gnuHash_eq_linkerGnuHash_iff (name : ElfName) :
    gnuHash name = linkerGnuHash name ↔ signWeight name % 2 ^ 24 = 0 := by
  rw [linkerGnuHash_eq, left_eq_add, ← BitVec.toNat_inj, BitVec.toNat_ofNat,
    show BitVec.toNat (0 : BitVec 32) = 0 from rfl]
  omega

/-- 33 is 1 modulo 32. -/
theorem signWeight_mod (name : ElfName) : signWeight name % 32 = signCount name % 32 := by
  suffices h : ∀ w, name.foldl (fun w c => w * 33 + signBit c) w % 32 =
      (w + (name.map signBit).sum) % 32 by
    simpa [signWeight, signCount] using h 0
  induction name with
  | nil => exact fun w => rfl
  | cons c name ih =>
    intro w
    rw [List.foldl_cons, List.map_cons, List.sum_cons, ih]
    omega

theorem signCount_eq_zero_iff (name : ElfName) :
    signCount name = 0 ↔ ∀ c ∈ name, c.toNat < 128 := by
  rw [signCount, List.sum_eq_zero_iff]
  simp [signBit]

theorem signWeight_eq_zero {name : ElfName} (h : ∀ c ∈ name, c.toNat < 128) :
    signWeight name = 0 := by
  rw [signWeight]
  induction name with
  | nil => rfl
  | cons c name ih =>
    rw [List.foldl_cons, signBit, if_neg (not_le.mpr (h c List.mem_cons_self))]
    exact ih fun c hc => h c (List.mem_cons_of_mem _ hc)

/-! ### The System V hash -/

/-- The upper four bits are shifted out by the next byte, so it does not matter whether they have
been cleared. -/
theorem shiftLeft_and_mask (h : BitVec 32) : (h &&& 0x0fffffff#32) <<< 4 = h <<< 4 := by
  have hmask : ∀ i < 28, (0x0fffffff#32).getLsbD i = true := by decide
  apply BitVec.eq_of_getLsbD_eq
  intro i hi
  rw [BitVec.getLsbD_shiftLeft, BitVec.getLsbD_shiftLeft, BitVec.getLsbD_and]
  rcases Nat.lt_or_ge i 4 with hlt | hge
  · simp [hlt]
  · rw [hmask (i - 4) (by omega), Bool.and_true]

theorem and_mask_eq_and_not (x : BitVec 32) :
    (x ^^^ ((x &&& 0xf0000000#32) >>> 24)) &&& 0x0fffffff#32 =
      (x ^^^ ((x &&& 0xf0000000#32) >>> 24)) &&& ~~~(x &&& 0xf0000000#32) := by
  have hhigh : ∀ i < 32, (0xf0000000#32).getLsbD i = decide (28 ≤ i) := by decide
  have hlow : ∀ i < 32, (0x0fffffff#32).getLsbD i = decide (i < 28) := by decide
  apply BitVec.eq_of_getLsbD_eq
  intro i hi
  rw [BitVec.getLsbD_and, BitVec.getLsbD_and, BitVec.getLsbD_not, BitVec.getLsbD_and, hhigh i hi,
    hlow i hi]
  rcases Nat.lt_or_ge i 28 with hlt | hge
  · rw [decide_eq_true hlt, decide_eq_false (not_le.mpr hlt), decide_eq_true hi, Bool.and_false]
    rfl
  · -- the upper bits of both sides are 0
    have hout : x.getLsbD (24 + i) = false := BitVec.getLsbD_of_ge x (24 + i) (by omega)
    rw [BitVec.getLsbD_xor, BitVec.getLsbD_ushiftRight, BitVec.getLsbD_and, hout]
    simp [hge, hi]

theorem elfHash_round (h c : BitVec 32) :
    (((h <<< 4) + c) ^^^ ((((h <<< 4) + c) &&& 0xf0000000#32) >>> 24)) &&& 0x0fffffff#32 =
      ((((h &&& 0x0fffffff#32) <<< 4) + c) ^^^
        (((((h &&& 0x0fffffff#32) <<< 4) + c) &&& 0xf0000000#32) >>> 24)) &&&
          ~~~((((h &&& 0x0fffffff#32) <<< 4) + c) &&& 0xf0000000#32) := by
  rw [shiftLeft_and_mask]
  exact and_mask_eq_and_not _

theorem elfHash_eq_systemVHash {name : ElfName} (hname : ∀ c ∈ name, c.toNat < 128) :
    elfHash name = systemVHash name := by
  rw [elfHash, systemVHash]
  suffices h : ∀ h : BitVec 32,
      name.foldl (fun (h : BitVec 32) c =>
        let h := (h <<< 4) + c.signExtend 32
        let g := h &&& 0xf0000000#32
        h ^^^ (g >>> 24)) h &&& 0x0fffffff#32 =
      name.foldl (fun (h : BitVec 32) c =>
        let h := (h <<< 4) + c.setWidth 32
        let g := h &&& 0xf0000000#32
        (h ^^^ (g >>> 24)) &&& ~~~g) (h &&& 0x0fffffff#32) from h 0
  induction name with
  | nil => exact fun _ => rfl
  | cons c name ih =>
    intro h
    rw [List.foldl_cons, List.foldl_cons, signExtend_of_lt (hname c List.mem_cons_self),
      ih fun c hc => hname c (List.mem_cons_of_mem _ hc)]
    dsimp only
    rw [elfHash_round]

/-- The hashes of a name are those of the linker if all its bytes are below 128. The first one is
that of the linker exactly if the weight of the other bytes is a multiple of `2 ^ 24`; it is not
unless their number is a multiple of 32. -/
theorem hashes_of_name (name : ElfName) :
    ((∀ c ∈ name, c.toNat < 128) →
      gnuHash name = linkerGnuHash name ∧ elfHash name = systemVHash name) ∧
    (gnuHash name = linkerGnuHash name ↔ signWeight name % 2 ^ 24 = 0) ∧
    (signCount name % 32 ≠ 0 ∨ signCount name = 0 →
      (gnuHash name = linkerGnuHash name ∧ elfHash name = systemVHash name ↔
        ∀ c ∈ name, c.toNat < 128)) := by
  have henough (h : ∀ c ∈ name, c.toNat < 128) :
      gnuHash name = linkerGnuHash name ∧ elfHash name = systemVHash name :=
    ⟨(gnuHash_eq_linkerGnuHash_iff name).mpr (by rw [signWeight_eq_zero h, Nat.zero_mod]),
      elfHash_eq_systemVHash h⟩
  refine ⟨henough, gnuHash_eq_linkerGnuHash_iff name, fun hcount => ⟨fun hagree => ?_, henough⟩⟩
  rcases hcount with hcount | hcount
  · have hweight := (gnuHash_eq_linkerGnuHash_iff name).mp hagree.1
    have hmod := signWeight_mod name
    omega
  · exact (signCount_eq_zero_iff name).mp hcount

/-- The hashes of `é` in UTF-8. -/
theorem hashes_of_accent :
    ¬ (gnuHash [0xc3, 0xa9] = linkerGnuHash [0xc3, 0xa9] ∧
      elfHash [0xc3, 0xa9] = systemVHash [0xc3, 0xa9]) := by
  decide

end Ddprof
