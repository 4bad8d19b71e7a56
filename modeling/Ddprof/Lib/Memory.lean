import Mathlib.Data.List.GetD
import Ddprof.Lib.Circular

/-!
Linear byte memory.

A memory has a byte at every address. A load takes the bytes of a range of addresses, and a store
replaces them.
-/

namespace Memory

open Circular (Byte leBytes leWord)

variable {m m' : ℕ → Byte} {p q n k a i w : ℕ} {bs cs : List Byte}

/-- The `n` bytes from address `p` on. -/
def load (m : ℕ → Byte) (p n : ℕ) : List Byte := (List.range n).map fun i => m (p + i)

def store (m : ℕ → Byte) (p : ℕ) (bs : List Byte) : ℕ → Byte :=
  fun a => if p ≤ a then bs.getD (a - p) (m a) else m a

/-! ### Loads -/

@[simp] theorem length_load : (load m p n).length = n := by simp [load]

theorem load_eq_load_iff : load m p n = load m' q n ↔ ∀ i < n, m (p + i) = m' (q + i) := by
  rw [load, load, List.map_inj_left]
  simp only [List.mem_range]

theorem load_congr (h : ∀ i < n, m (p + i) = m' (q + i)) : load m p n = load m' q n :=
  load_eq_load_iff.mpr h

theorem load_add (m : ℕ → Byte) (p n k : ℕ) :
    load m p (n + k) = load m p n ++ load m (p + n) k := by
  simp only [load, List.range_add, List.map_append, List.map_map, Function.comp_def, Nat.add_assoc]

theorem getD_load (h : i < n) : (load m p n).getD i 0 = m (p + i) := by
  simp [load, h]

theorem take_drop_load (h : k + i ≤ n) : ((load m p n).drop k).take i = load m (p + k) i := by
  rw [show n = k + (i + (n - k - i)) by omega, load_add, load_add, List.drop_left' length_load,
    List.take_left' length_load]

/-! ### Stores -/

theorem store_of_lt (h : a < p) : store m p bs a = m a := if_neg (by omega)

theorem store_of_le (h : p + bs.length ≤ a) : store m p bs a = m a := by
  rw [store, if_pos (by omega), List.getD_eq_default _ _ (by omega)]

theorem store_add (h : i < bs.length) : store m p bs (p + i) = bs.getD i 0 := by
  rw [store, if_pos (by omega), Nat.add_sub_cancel_left, List.getD_eq_getElem _ _ h,
    List.getD_eq_getElem _ _ h]

theorem store_load (h : i < n) : store m p (load m' q n) (p + i) = m' (q + i) := by
  rw [store_add (by rwa [length_load]), getD_load h]

theorem load_store_self (m : ℕ → Byte) (p : ℕ) (bs : List Byte) :
    load (store m p bs) p bs.length = bs := by
  refine List.ext_getElem length_load fun i hi hlt => ?_
  rw [← List.getD_eq_getElem _ 0 hi, getD_load hlt, store_add hlt, List.getD_eq_getElem _ _ hlt]

/-! ### Circular memories -/

/-- The first `size` bytes, again and again. -/
def mirror (size : ℕ) (m : ℕ → Byte) : ℕ → Byte := fun a => m (a % size)

theorem read_eq_load {size : ℕ} : Circular.read size m p n = load (mirror size m) p n := by
  induction n generalizing p with
  | zero => rfl
  | succ n ih =>
    rw [Circular.read, ih, Nat.add_comm n 1, load_add]
    rfl

theorem load_mirror_of_le {size : ℕ} (h : p + n ≤ size) : load (mirror size m) p n = load m p n :=
  load_congr fun i hi => by rw [mirror, Nat.mod_eq_of_lt (by omega)]

/-- A range that runs over the end goes on at the beginning. -/
theorem load_mirror_of_lt {size : ℕ} (hp : p ≤ size) (hlt : size < p + n) (hn : p + n ≤ 2 * size) :
    load (mirror size m) p n = load m p (size - p) ++ load m 0 (n - (size - p)) := by
  have hsplit := load_add (mirror size m) p (size - p) (n - (size - p))
  rw [show size - p + (n - (size - p)) = n by omega, load_mirror_of_le (n := size - p) (by omega),
    show p + (size - p) = size by omega] at hsplit
  rw [hsplit]
  refine congrArg _ (load_congr fun i hi => ?_)
  rw [mirror, Nat.add_mod_left, Nat.mod_eq_of_lt (by omega), Nat.zero_add]

/-! ### Several stores -/

/-- The stores of a list, the first one first. -/
def storeAll (m : ℕ → Byte) (ws : List (ℕ × List Byte)) : ℕ → Byte :=
  ws.foldl (fun m w => store m w.1 w.2) m

def Separate (w w' : ℕ × List Byte) : Prop :=
  w.1 + w.2.length ≤ w'.1 ∨ w'.1 + w'.2.length ≤ w.1

theorem storeAll_of_forall_separate {ws : List (ℕ × List Byte)} {w : ℕ × List Byte}
    (h : ∀ w' ∈ ws, Separate w w') (m : ℕ → Byte) (hi : i < w.2.length) :
    storeAll m ws (w.1 + i) = m (w.1 + i) := by
  induction ws generalizing m with
  | nil => rfl
  | cons w' rest ih =>
    rw [storeAll, List.foldl_cons, ← storeAll, ih fun v hv => h v (List.mem_cons_of_mem w' hv)]
    rcases h w' List.mem_cons_self with hle | hle
    · exact store_of_lt (by omega)
    · exact store_of_le (by omega)

theorem load_storeAll {ws : List (ℕ × List Byte)} (h : ws.Pairwise Separate)
    {w : ℕ × List Byte} (hw : w ∈ ws) (m : ℕ → Byte) :
    load (storeAll m ws) w.1 w.2.length = w.2 := by
  induction ws generalizing m with
  | nil => cases hw
  | cons w' rest ih =>
    obtain ⟨hhead, htail⟩ := List.pairwise_cons.mp h
    rcases List.mem_cons.mp hw with rfl | hw
    · have hlater : load (storeAll m (w :: rest)) w.1 w.2.length =
          load (store m w.1 w.2) w.1 w.2.length :=
        load_congr fun i hi => storeAll_of_forall_separate hhead _ hi
      rw [hlater, load_store_self]
    · exact ih htail hw _

/-! ### Words -/

theorem leWord_append (bs cs : List Byte) :
    leWord (bs ++ cs) = leWord bs + 256 ^ bs.length * leWord cs := by
  induction bs with
  | nil => simp [leWord]
  | cons b bs ih =>
    rw [List.cons_append, leWord, leWord, ih, List.length_cons, pow_succ']
    ring

theorem leWord_eq_zero_iff : leWord bs = 0 ↔ ∀ b ∈ bs, b = 0 := by
  induction bs with
  | nil => simp [leWord]
  | cons b bs ih =>
    rw [leWord, List.forall_mem_cons, ← ih, ← BitVec.toNat_inj,
      show BitVec.toNat (0 : Byte) = 0 from rfl]
    omega

theorem leWord_load_lt (m : ℕ → Byte) (p n : ℕ) : leWord (load m p n) < 256 ^ n := by
  have h := Circular.leWord_lt (load m p n)
  rwa [length_load] at h

theorem leWord_load_add (m : ℕ → Byte) (p n k : ℕ) :
    leWord (load m p (n + k)) = leWord (load m p n) + 256 ^ n * leWord (load m (p + n) k) := by
  rw [load_add, leWord_append, length_load]

/-- A word that is stored, and stands there still, is loaded back. -/
theorem leWord_load_of_stored (hw : w < 256 ^ k)
    (h : ∀ i < k, m' (p + i) = store m p (leBytes k w) (p + i)) : leWord (load m' p k) = w := by
  have hself := load_store_self m p (leBytes k w)
  rw [Circular.length_leBytes] at hself
  rw [load_congr h, hself, Circular.leWord_leBytes, Nat.mod_eq_of_lt hw]

theorem length_flatMap_leBytes (ws : List ℕ) : (ws.flatMap (leBytes k)).length = k * ws.length := by
  induction ws with
  | nil => rfl
  | cons w rest ih =>
    rw [List.flatMap_cons, List.length_append, ih, Circular.length_leBytes, List.length_cons,
      Nat.mul_succ, Nat.add_comm]

/-- The words of an array, one after the other. -/
theorem take_drop_flatMap_leBytes (ws : List ℕ) (hi : i < ws.length) :
    ((ws.flatMap (leBytes k)).drop (k * i)).take k = leBytes k ws[i] := by
  induction ws generalizing i with
  | nil => cases hi
  | cons w rest ih =>
    rw [List.flatMap_cons]
    cases i with
    | zero =>
      rw [Nat.mul_zero, List.drop_zero, List.take_left' (Circular.length_leBytes k w)]
      rfl
    | succ i =>
      rw [Nat.mul_succ, Nat.add_comm, ← List.drop_drop,
        List.drop_left' (Circular.length_leBytes k w), ih (by simpa using hi)]
      rfl

/-! ### Copies -/

/-- Only the first `n` bytes are copied, to a place that is otherwise 0. -/
theorem load_eq_load_iff_of_copied {source : ℕ → Byte}
    (h : ∀ i < k, m' (p + i) = store m p (load source q n) (p + i))
    (hzero : ∀ i < k, n ≤ i → m (p + i) = 0) :
    load m' p k = load source q k ↔ ∀ i < k, n ≤ i → source (q + i) = 0 := by
  rw [load_eq_load_iff]
  refine forall₂_congr fun i hi => ?_
  rw [h i hi]
  by_cases hin : i < n
  · rw [store_load hin]
    exact iff_of_true rfl fun hle => absurd hin (by omega)
  · rw [store_of_le (by rw [length_load]; omega), hzero i hi (by omega)]
    exact ⟨fun heq _ => heq.symm, fun heq => (heq (by omega)).symm⟩

end Memory
