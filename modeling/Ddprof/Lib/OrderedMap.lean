import Mathlib.Data.List.Basic
import Mathlib.Order.Basic
import Mathlib.Tactic

/-!
A key-ordered map with the interface of `std::map`.

The representation is the strictly sorted list of entries, and the sortedness
is a field, so no operation can leave the map unsorted. An iterator is the key
it points at, with `none` for the end iterator: node-based maps keep iterators
valid while other entries come and go, and a key has exactly that stability.

Every operation is characterised by its membership lemma. An invariant of the
form "every entry satisfies `P`, every two entries in key order satisfy `Q`"
is then preserved by an argument about entries, without the list.
-/

structure OrderedMap (κ α : Type) [LinearOrder κ] where
  entries : List (κ × α)
  sorted : entries.Pairwise (fun a b => a.1 < b.1)

namespace OrderedMap

variable {κ α : Type} [LinearOrder κ]

/-- An iterator: the key it points at, or `none` past the last entry. -/
abbrev Iter (κ : Type) := Option κ

def empty : OrderedMap κ α := ⟨[], List.Pairwise.nil⟩

instance : Inhabited (OrderedMap κ α) := ⟨empty⟩

instance [DecidableEq α] : DecidableEq (OrderedMap κ α) := fun m m' =>
  decidable_of_iff (m.entries = m'.entries) (by
    cases m; cases m'; simp)

instance : Membership (κ × α) (OrderedMap κ α) := ⟨fun m e => e ∈ m.entries⟩

variable {m : OrderedMap κ α} {e : κ × α}

theorem mem_def : e ∈ m ↔ e ∈ m.entries := Iff.rfl

@[simp] theorem not_mem_empty (e : κ × α) : e ∉ (empty : OrderedMap κ α) := by
  simp [mem_def, empty]

theorem eq_of_mem_of_key {e e' : κ × α} (h : e ∈ m) (h' : e' ∈ m) (hk : e.1 = e'.1) : e = e' := by
  have hnodup : (m.entries.map Prod.fst).Nodup :=
    List.pairwise_map.mpr (m.sorted.imp ne_of_lt)
  exact List.inj_on_of_nodup_map hnodup h h' hk

variable {k : κ}

theorem val_unique {v w : α} (hv : (k, v) ∈ m) (hw : (k, w) ∈ m) :
    v = w :=
  congrArg Prod.snd (eq_of_mem_of_key hv hw rfl)

variable {r : κ × α → κ × α → Prop}

/-- A relation that holds between any two entries in key order holds pairwise
along the list of entries. -/
theorem pairwise_of_lt (h : ∀ a ∈ m, ∀ b ∈ m, a.1 < b.1 → r a b) : m.entries.Pairwise r :=
  m.sorted.imp_of_mem fun ha hb hlt => h _ ha _ hb hlt

/-- A relation that holds pairwise along the entries holds of any two in key order. -/
theorem rel_of_pairwise
    (h : m.entries.Pairwise r) {a b : κ × α} (ha : a ∈ m) (hb : b ∈ m) (hlt : a.1 < b.1) :
    r a b := by
  obtain ⟨i, hi, rfl⟩ := List.getElem_of_mem ha
  obtain ⟨j, hj, rfl⟩ := List.getElem_of_mem hb
  rcases Nat.lt_trichotomy i j with hij | rfl | hji
  · exact List.pairwise_iff_getElem.mp h i j hi hj hij
  · exact absurd hlt (lt_irrefl _)
  · exact absurd hlt (List.pairwise_iff_getElem.mp m.sorted j i hj hi hji).not_gt

/-! ### Lookup -/

/-- `find`: the value at a key. -/
def find (m : OrderedMap κ α) (k : κ) : Option α :=
  (m.entries.find? fun e => e.1 = k).map Prod.snd

theorem find_eq_some {v : α} :
    m.find k = some v ↔ (k, v) ∈ m := by
  constructor
  · intro h
    obtain ⟨e, he, rfl⟩ := Option.map_eq_some_iff.mp h
    have hk : e.1 = k := by simpa using List.find?_some he
    have hmem := List.mem_of_find?_eq_some he
    rw [← hk]
    exact hmem
  · intro h
    cases hf : m.entries.find? (fun e => e.1 = k) with
    | none =>
      have := List.find?_eq_none.mp hf (k, v) h
      simp at this
    | some e =>
      have hk : e.1 = k := by simpa using List.find?_some hf
      have : e = (k, v) := eq_of_mem_of_key (List.mem_of_find?_eq_some hf) h hk
      simp [find, hf, this]

theorem find_eq_none :
    m.find k = none ↔ ∀ e ∈ m, e.1 ≠ k := by
  simp [find, mem_def]

/-! ### Positions -/

/-- `upper_bound`: the first entry whose key is greater than `k`. -/
def upperBound (m : OrderedMap κ α) (k : κ) : Iter κ :=
  (m.entries.find? fun e => k < e.1).map Prod.fst

/-- `lower_bound`: the first entry whose key is not less than `k`. -/
def lowerBound (m : OrderedMap κ α) (k : κ) : Iter κ :=
  (m.entries.find? fun e => k ≤ e.1).map Prod.fst

def Before (k : κ) : Iter κ → Prop
  | none => True
  | some l => k < l

instance (k : κ) (it : Iter κ) : Decidable (Before k it) :=
  match it with
  | none => inferInstanceAs (Decidable True)
  | some l => inferInstanceAs (Decidable (k < l))

def AtOrAfter (k : κ) : Iter κ → Prop
  | none => False
  | some f => f ≤ k

instance (k : κ) (it : Iter κ) : Decidable (AtOrAfter k it) :=
  match it with
  | none => inferInstanceAs (Decidable False)
  | some f => inferInstanceAs (Decidable (f ≤ k))

@[simp] theorem before_none (k : κ) : Before k none := trivial
@[simp] theorem before_some (k l : κ) : Before k (some l) ↔ k < l := Iff.rfl
@[simp] theorem not_atOrAfter_none (k : κ) : ¬ AtOrAfter k none := id
@[simp] theorem atOrAfter_some (k f : κ) : AtOrAfter k (some f) ↔ f ≤ k := Iff.rfl

variable {it : Iter κ}

@[simp] theorem not_before_iff : ¬ Before k it ↔ AtOrAfter k it := by
  cases it with
  | none => simp
  | some l => simp

/-- `begin`. -/
def begin (m : OrderedMap κ α) : Iter κ := m.entries.head?.map Prod.fst

/-- `std::prev`: the last entry before the iterator, and `none` when there is
none (the iterator is `begin`). -/
def prev (m : OrderedMap κ α) (it : Iter κ) : Option κ :=
  (m.entries.filter fun e => decide (Before e.1 it)).getLast?.map Prod.fst

/-- The entries that `++it` visits from an iterator on. -/
def entriesFrom (m : OrderedMap κ α) (it : Iter κ) : List (κ × α) :=
  m.entries.filter fun e => AtOrAfter e.1 it

theorem mem_entriesFrom :
    e ∈ m.entriesFrom it ↔ e ∈ m ∧ AtOrAfter e.1 it := by
  simp [entriesFrom, mem_def]

theorem sorted_entriesFrom (m : OrderedMap κ α) (it : Iter κ) :
    (m.entriesFrom it).Pairwise fun a b => a.1 < b.1 :=
  m.sorted.filter _

/-- Among sorted entries, the first one whose key passes a test has the least
key to do so. -/
private theorem find?_least (p : κ → Prop) [DecidablePred p] (m : OrderedMap κ α) :
    match (m.entries.find? fun e => p e.1).map Prod.fst with
    | none => ∀ e ∈ m, ¬ p e.1
    | some k => p k ∧ (∃ v, (k, v) ∈ m) ∧ ∀ e ∈ m, p e.1 → k ≤ e.1 := by
  cases hf : m.entries.find? (fun e => p e.1) with
  | none =>
    simp only [Option.map_none]
    intro e he
    simpa using List.find?_eq_none.mp hf e he
  | some x =>
    simp only [Option.map_some]
    have hx : p x.1 := by simpa using List.find?_some hf
    refine ⟨hx, ⟨x.2, List.mem_of_find?_eq_some hf⟩, ?_⟩
    intro e he hpe
    obtain ⟨_, as, bs, hsplit, has⟩ := List.find?_eq_some_iff_append.mp hf
    have hs := m.sorted
    rw [hsplit] at hs
    have he' : e ∈ as ++ x :: bs := hsplit ▸ he
    rcases List.mem_append.mp he' with h | h
    · have := has e h
      simp [hpe] at this
    · rcases List.mem_cons.mp h with rfl | h
      · exact le_rfl
      · exact le_of_lt (List.rel_of_pairwise_cons (List.pairwise_append.mp hs).2.1 h)

theorem upperBound_eq_some {k k' : κ} (h : m.upperBound k = some k') :
    k < k' ∧ (∃ v, (k', v) ∈ m) ∧ ∀ e ∈ m, k < e.1 → k' ≤ e.1 := by
  have hl := find?_least (fun x => k < x) m
  unfold upperBound at h
  rw [h] at hl
  exact hl

theorem upperBound_eq_none (h : m.upperBound k = none) :
    ∀ e ∈ m, e.1 ≤ k := by
  have hl := find?_least (fun x => k < x) m
  unfold upperBound at h
  rw [h] at hl
  exact fun e he => not_lt.mp (hl e he)

theorem lowerBound_eq_some {k k' : κ} (h : m.lowerBound k = some k') :
    k ≤ k' ∧ (∃ v, (k', v) ∈ m) ∧ ∀ e ∈ m, k ≤ e.1 → k' ≤ e.1 := by
  have hl := find?_least (fun x => k ≤ x) m
  unfold lowerBound at h
  rw [h] at hl
  exact hl

theorem lowerBound_eq_none (h : m.lowerBound k = none) :
    ∀ e ∈ m, e.1 < k := by
  have hl := find?_least (fun x => k ≤ x) m
  unfold lowerBound at h
  rw [h] at hl
  exact fun e he => not_le.mp (hl e he)

/-- The entries not before `lower_bound k` are those with a key of at least `k`. -/
theorem before_lowerBound (he : e ∈ m) :
    Before e.1 (m.lowerBound k) ↔ e.1 < k := by
  cases h : m.lowerBound k with
  | none => simpa using lowerBound_eq_none h e he
  | some l =>
    obtain ⟨hk, _, hleast⟩ := lowerBound_eq_some h
    rw [before_some]
    constructor
    · intro hlt
      by_contra hge
      exact absurd (hleast e he (not_lt.mp hge)) (not_le.mpr hlt)
    · exact fun hlt => lt_of_lt_of_le hlt hk

/-- The entries from `upper_bound k` on are those with a key above `k`. -/
theorem atOrAfter_upperBound (he : e ∈ m) :
    AtOrAfter e.1 (m.upperBound k) ↔ k < e.1 := by
  cases h : m.upperBound k with
  | none => simpa using upperBound_eq_none h e he
  | some l =>
    obtain ⟨hk, _, hleast⟩ := upperBound_eq_some h
    rw [atOrAfter_some]
    exact ⟨fun hle => lt_of_lt_of_le hk hle, fun hlt => hleast e he hlt⟩

theorem prev_eq_some (h : m.prev it = some k) :
    Before k it ∧ (∃ v, (k, v) ∈ m) ∧ ∀ e ∈ m, Before e.1 it → e.1 ≤ k := by
  obtain ⟨x, hx, rfl⟩ := Option.map_eq_some_iff.mp h
  have hmem := List.mem_of_getLast? hx
  rw [List.mem_filter, decide_eq_true_eq] at hmem
  refine ⟨hmem.2, ⟨x.2, hmem.1⟩, ?_⟩
  intro e he hb
  have he' : e ∈ m.entries.filter fun e => decide (Before e.1 it) := by
    rw [List.mem_filter, decide_eq_true_eq]
    exact ⟨he, hb⟩
  have hs : (m.entries.filter fun e => decide (Before e.1 it)).Pairwise
      (fun a b => a.1 < b.1) := m.sorted.filter _
  obtain ⟨ys, hys⟩ := List.getLast?_eq_some_iff.mp hx
  rw [hys] at hs he'
  rcases List.mem_append.mp he' with h1 | h1
  · exact le_of_lt ((List.pairwise_append.mp hs).2.2 e h1 x (by simp))
  · simp at h1
    rw [h1]

theorem prev_eq_none (h : m.prev it = none) :
    ∀ e ∈ m, ¬ Before e.1 it := by
  intro e he hb
  have hnil : (m.entries.filter fun e => decide (Before e.1 it)) = [] := by
    simpa [prev] using h
  have he' : e ∈ m.entries.filter fun e => decide (Before e.1 it) := by
    rw [List.mem_filter, decide_eq_true_eq]
    exact ⟨he, hb⟩
  rw [hnil] at he'
  exact absurd he' List.not_mem_nil

theorem not_before_begin (he : e ∈ m) :
    ¬ Before e.1 m.begin := by
  obtain ⟨entries, hsorted⟩ := m
  cases entries with
  | nil => exact absurd he List.not_mem_nil
  | cons x rest =>
    simp only [begin, List.head?_cons, Option.map_some, before_some, not_lt]
    rcases List.mem_cons.mp he with rfl | h
    · exact le_rfl
    · exact le_of_lt (List.rel_of_pairwise_cons hsorted h)

/-- The last entry whose key is at most `k`. -/
structure IsFloor (m : OrderedMap κ α) (k : κ) (e : κ × α) : Prop where
  mem : e ∈ m
  le : e.1 ≤ k
  last : ∀ e' ∈ m, e'.1 ≤ k → e'.1 ≤ e.1

theorem IsFloor.unique {e e' : κ × α} (h : m.IsFloor k e) (h' : m.IsFloor k e') : e = e' :=
  eq_of_mem_of_key h.mem h'.mem (le_antisymm (h'.last e h.mem h.le) (h.last e' h'.mem h'.le))

theorem isFloor_self (he : e ∈ m) : m.IsFloor e.1 e :=
  ⟨he, le_rfl, fun _ _ hle => hle⟩

/-! ### Ranges of iterators -/

/-- The entries that `++` visits from `first` are `l`, and then those from `last` on. -/
def IsRange (m : OrderedMap κ α) (first last : Iter κ) (l : List (κ × α)) : Prop :=
  m.entriesFrom first = l ++ m.entriesFrom last

variable {first last : Iter κ} {x : κ × α} {l pre post : List (κ × α)}

/-- Where one iterator does not stand before another, the entries between the two
make the range. -/
theorem isRange_filter (hle : ∀ e ∈ m, AtOrAfter e.1 last → AtOrAfter e.1 first) :
    m.IsRange first last (m.entries.filter fun e => AtOrAfter e.1 first ∧ Before e.1 last) := by
  obtain ⟨entries, hsorted⟩ := m
  simp only [IsRange, entriesFrom, mem_def] at hle ⊢
  induction entries with
  | nil => rfl
  | cons x rest ih =>
    have hrest := ih hsorted.of_cons fun e he => hle e (List.mem_cons_of_mem x he)
    by_cases hlast : AtOrAfter x.1 last
    · -- nothing from `x` on stands before `last`
      have hall : ∀ e ∈ x :: rest, AtOrAfter e.1 last := by
        intro e he
        rcases List.mem_cons.mp he with rfl | he
        · exact hlast
        · cases last with
          | none => exact hlast
          | some k => exact le_of_lt (lt_of_le_of_lt hlast (List.rel_of_pairwise_cons hsorted he))
      rw [List.filter_eq_self.mpr fun e he => decide_eq_true (hle e he (hall e he)),
        List.filter_eq_self.mpr fun e he => decide_eq_true (hall e he),
        List.filter_eq_nil_iff.mpr fun e he => by
          simpa [← not_before_iff] using fun _ => not_before_iff.mpr (hall e he)]
      rfl
    · have hbefore : Before x.1 last := by rwa [← not_before_iff, not_not] at hlast
      by_cases hfirst : AtOrAfter x.1 first <;>
        simp [hlast, hbefore, hfirst, hrest]

theorem entriesFrom_begin (m : OrderedMap κ α) : m.entriesFrom m.begin = m.entries :=
  List.filter_eq_self.mpr fun _ he =>
    decide_eq_true (not_before_iff.mp (not_before_begin (mem_def.mpr he)))

theorem entriesFrom_suffix (m : OrderedMap κ α) (it : Iter κ) : m.entriesFrom it <:+ m.entries := by
  have h : m.IsRange m.begin it _ := isRange_filter fun e he _ =>
    not_before_iff.mp (not_before_begin he)
  rw [IsRange, entriesFrom_begin] at h
  exact ⟨_, h.symm⟩

/-- The iterator after an entry visits what follows it in the list. -/
theorem entriesFrom_upperBound (h : m.entries = pre ++ x :: post) :
    m.entriesFrom (m.upperBound x.1) = post := by
  have hs := m.sorted
  rw [h, List.pairwise_append, List.pairwise_cons] at hs
  have hiter : ∀ e ∈ m.entries, AtOrAfter e.1 (m.upperBound x.1) ↔ x.1 < e.1 :=
    fun e he => atOrAfter_upperBound he
  rw [entriesFrom, List.filter_congr fun e he => decide_eq_decide.mpr (hiter e he), h,
    List.filter_append, List.filter_eq_nil_iff.mpr, List.nil_append,
    List.filter_cons_of_neg (by simp), List.filter_eq_self.mpr]
  · exact fun e he => decide_eq_true (hs.2.1.1 e he)
  · intro e he
    have := hs.2.2 e he x List.mem_cons_self
    simpa using this.le

theorem entriesFrom_some (h : m.entries = pre ++ x :: post) :
    m.entriesFrom (some x.1) = x :: post := by
  have hs := m.sorted
  rw [h, List.pairwise_append, List.pairwise_cons] at hs
  simp only [entriesFrom, atOrAfter_some, h]
  rw [List.filter_append, List.filter_eq_nil_iff.mpr, List.nil_append, List.filter_eq_self.mpr]
  · intro e he
    rcases List.mem_cons.mp he with rfl | he
    · simp
    · exact decide_eq_true (hs.2.1.1 e he).le
  · exact fun e he => by simpa using hs.2.2 e he x List.mem_cons_self

def entriesBefore (m : OrderedMap κ α) (it : Iter κ) : List (κ × α) :=
  m.entries.filter fun e => Before e.1 it

theorem entriesBefore_some (h : m.entries = pre ++ x :: post) :
    m.entriesBefore (some x.1) = pre := by
  have hs := m.sorted
  rw [h, List.pairwise_append, List.pairwise_cons] at hs
  simp only [entriesBefore, before_some, h]
  rw [List.filter_append, List.filter_cons_of_neg (by simp), List.filter_eq_self.mpr,
    List.filter_eq_nil_iff.mpr, List.append_nil]
  · exact fun e he => by simpa using (hs.2.1.1 e he).le
  · exact fun e he => decide_eq_true (hs.2.2 e he x List.mem_cons_self)

/-! ### Updates -/

/-- Sorted insertion, replacing the value of an entry with the same key. -/
def insertEntry (k : κ) (v : α) : List (κ × α) → List (κ × α)
  | [] => [(k, v)]
  | x :: rest =>
    if k < x.1 then (k, v) :: x :: rest
    else if k = x.1 then (k, v) :: rest
    else x :: insertEntry k v rest

theorem mem_insertEntry {v : α} {l : List (κ × α)} (hl : l.Pairwise (fun a b => a.1 < b.1)) :
    e ∈ insertEntry k v l ↔ e = (k, v) ∨ e ∈ l ∧ e.1 ≠ k := by
  induction l with
  | nil => simp [insertEntry]
  | cons x rest ih =>
    have hrest := ih hl.of_cons
    have hx : ∀ y ∈ rest, x.1 < y.1 := fun y hy => List.rel_of_pairwise_cons hl hy
    unfold insertEntry
    split_ifs with hlt heq
    · have hne : ∀ y ∈ x :: rest, y.1 ≠ k := by
        intro y hy
        rcases List.mem_cons.mp hy with rfl | hy
        · exact ne_of_gt hlt
        · exact ne_of_gt (hlt.trans (hx y hy))
      rw [List.mem_cons]
      exact or_congr_right ⟨fun h => ⟨h, hne e h⟩, And.left⟩
    · have hne : ∀ y ∈ rest, y.1 ≠ k := fun y hy => heq ▸ ne_of_gt (hx y hy)
      rw [List.mem_cons, List.mem_cons]
      refine or_congr_right ⟨fun h => ⟨.inr h, hne e h⟩, ?_⟩
      rintro ⟨rfl | h, hk⟩
      · exact absurd heq.symm hk
      · exact h
    · rw [List.mem_cons, List.mem_cons, hrest]
      constructor
      · rintro (rfl | rfl | h)
        · exact .inr ⟨.inl rfl, fun hk => heq hk.symm⟩
        · exact .inl rfl
        · exact .inr ⟨.inr h.1, h.2⟩
      · rintro (rfl | ⟨rfl | h, hk⟩)
        · exact .inr (.inl rfl)
        · exact .inl rfl
        · exact .inr (.inr ⟨h, hk⟩)

theorem sorted_insertEntry (k : κ) (v : α) {l : List (κ × α)}
    (hl : l.Pairwise (fun a b => a.1 < b.1)) :
    (insertEntry k v l).Pairwise (fun a b => a.1 < b.1) := by
  induction l with
  | nil => simp [insertEntry]
  | cons x rest ih =>
    have hx : ∀ y ∈ rest, x.1 < y.1 := fun y hy => List.rel_of_pairwise_cons hl hy
    unfold insertEntry
    split_ifs with hlt heq
    · refine hl.cons fun y hy => ?_
      rcases List.mem_cons.mp hy with rfl | hy
      · exact hlt
      · exact hlt.trans (hx y hy)
    · exact hl.of_cons.cons fun y hy => heq ▸ hx y hy
    · refine (ih hl.of_cons).cons fun y hy => ?_
      rcases (mem_insertEntry hl.of_cons).mp hy with rfl | ⟨hy, _⟩
      · exact lt_of_le_of_ne (not_lt.mp hlt) (Ne.symm heq)
      · exact hx y hy

/-- `operator[]` followed by an assignment, or `insert_or_assign`. -/
def insertOrAssign (m : OrderedMap κ α) (k : κ) (v : α) : OrderedMap κ α :=
  ⟨insertEntry k v m.entries, sorted_insertEntry k v m.sorted⟩

@[simp] theorem mem_insertOrAssign {v : α} :
    e ∈ m.insertOrAssign k v ↔ e = (k, v) ∨ e ∈ m ∧ e.1 ≠ k :=
  mem_insertEntry m.sorted

/-- `insert`: an entry with the same key prevents the insertion. -/
def insert (m : OrderedMap κ α) (k : κ) (v : α) : OrderedMap κ α × Bool :=
  match m.find k with
  | some _ => (m, false)
  | none => (m.insertOrAssign k v, true)

theorem insert_of_fresh (v : α) (h : ∀ e ∈ m, e.1 ≠ k) :
    m.insert k v = (m.insertOrAssign k v, true) := by
  rw [insert, find_eq_none.mpr h]

def filterKeys (m : OrderedMap κ α) (p : κ → Bool) : OrderedMap κ α :=
  ⟨m.entries.filter fun e => p e.1, m.sorted.filter _⟩

@[simp] theorem mem_filterKeys {p : κ → Bool} :
    e ∈ m.filterKeys p ↔ e ∈ m ∧ p e.1 = true := by
  simp [filterKeys, mem_def]

/-- `erase` of one key, and what `extract` leaves behind. -/
def eraseKey (m : OrderedMap κ α) (k : κ) : OrderedMap κ α :=
  m.filterKeys fun k' => k' ≠ k

@[simp] theorem mem_eraseKey :
    e ∈ m.eraseKey k ↔ e ∈ m ∧ e.1 ≠ k := by
  simp [eraseKey]

/-- `erase(first, last)`. -/
def eraseRange (m : OrderedMap κ α) (first last : Iter κ) : OrderedMap κ α :=
  m.filterKeys fun k => ¬ (AtOrAfter k first ∧ Before k last)

@[simp] theorem mem_eraseRange {first last : Iter κ} :
    e ∈ m.eraseRange first last ↔ e ∈ m ∧ ¬ (AtOrAfter e.1 first ∧ Before e.1 last) := by
  simp only [eraseRange, mem_filterKeys, decide_eq_true_eq]

def modify (m : OrderedMap κ α) (k : κ) (f : α → α) : OrderedMap κ α where
  entries := m.entries.map fun e => if e.1 = k then (e.1, f e.2) else e
  sorted := by
    refine List.pairwise_map.mpr (m.sorted.imp ?_)
    intro a b hab
    split <;> split <;> exact hab

theorem mem_modify {f : α → α} :
    e ∈ m.modify k f ↔ (e ∈ m ∧ e.1 ≠ k) ∨ ∃ v, (k, v) ∈ m ∧ e = (k, f v) := by
  simp only [modify, mem_def, List.mem_map]
  constructor
  · rintro ⟨x, hx, rfl⟩
    by_cases hk : x.1 = k
    · subst hk
      exact .inr ⟨x.2, hx, by simp⟩
    · exact .inl (by simpa [hk] using hx)
  · rintro (⟨he, hk⟩ | ⟨v, hv, rfl⟩)
    · exact ⟨e, he, by simp [hk]⟩
    · exact ⟨(k, v), hv, by simp⟩

theorem mem_modify_of_mem {v : α} (hv : (k, v) ∈ m) (f : α → α) :
    e ∈ m.modify k f ↔ (e ∈ m ∧ e.1 ≠ k) ∨ e = (k, f v) := by
  rw [mem_modify]
  refine or_congr_right ⟨?_, fun h => ⟨v, hv, h⟩⟩
  rintro ⟨w, hw, rfl⟩
  rw [val_unique hw hv]

/-! ### Lookup after an update -/

theorem find_insertOrAssign (m : OrderedMap κ α) (k : κ) (v : α) (k' : κ) :
    (m.insertOrAssign k v).find k' = if k' = k then some v else m.find k' := by
  ext w
  rw [find_eq_some, mem_insertOrAssign]
  split_ifs with hk
  · simp [hk, eq_comm]
  · simp [hk, find_eq_some]

theorem find_eraseKey (m : OrderedMap κ α) (k k' : κ) :
    (m.eraseKey k).find k' = if k' = k then none else m.find k' := by
  ext w
  rw [find_eq_some, mem_eraseKey]
  split_ifs with hk
  · simp [hk]
  · simp [hk, find_eq_some]

theorem find_modify (m : OrderedMap κ α) (k : κ) (f : α → α) (k' : κ) :
    (m.modify k f).find k' = if k' = k then (m.find k').map f else m.find k' := by
  ext w
  rw [find_eq_some, mem_modify]
  split_ifs with hk
  · subst hk
    rw [Option.map_eq_some_iff]
    simp [find_eq_some, @eq_comm _ w]
  · simp [hk, find_eq_some]

end OrderedMap
