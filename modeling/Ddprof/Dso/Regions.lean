import Ddprof.Dso.Hdr

/-!
What the insertion of a region does to a well-formed map.

`Remnant map d e` says that the entry `e` is what is left of some entry of
`map` once `d` has been mapped over it: an entry that `d` does not touch, the
part of an entry below `d`, or the part above. The main lemma is that
`erase_range`, called on the intersection of the map with `d`, leaves exactly
the remnants. It holds through each of the early returns of the source, and
everything else about insertion follows from it.
-/

namespace Ddprof

open OrderedMap

/-- Each key is the start of its region, regions belong to `pid` and are not
empty, and regions are strictly disjoint in key order. -/
structure WellFormed (pid : ℤ) (map : DsoMap) : Prop where
  key : ∀ e ∈ map, e.1 = e.2.start
  pid : ∀ e ∈ map, e.2.pid = pid
  proper : ∀ e ∈ map, e.2.Proper
  disjoint : ∀ a ∈ map, ∀ b ∈ map, a.1 < b.1 → a.2.endAddr < b.2.start

/-- What `check_invariants` tests of one map, apart from the pid, for regions that
are not empty. -/
structure Ordered (map : DsoMap) : Prop where
  key : ∀ e ∈ map, e.1 = e.2.start
  le : ∀ e ∈ map, e.2.start ≤ e.2.endAddr
  disjoint : ∀ a ∈ map, ∀ b ∈ map, a.1 < b.1 → a.2.endAddr < b.2.start

/-- Keys are starts, and no region intersects another. Regions without an address are
not excluded. -/
structure DisjointRegions (map : DsoMap) : Prop where
  key : ∀ e ∈ map, e.1 = e.2.start
  disjoint : ∀ a ∈ map, ∀ b ∈ map, a.1 ≠ b.1 → a.2.intersects b.2 = false

theorem DisjointRegions.endAddr_lt {map : DsoMap} (h : DisjointRegions map) {a b : ℕ × Dso}
    (ha : a ∈ map) (hb : b ∈ map) (hlt : a.1 < b.1) : a.2.endAddr < b.2.start := by
  have hstart : a.2.start < b.2.start := by
    rwa [← h.key a ha, ← h.key b hb]
  simpa [Dso.intersects, hstart] using h.disjoint a ha b hb hlt.ne

theorem Ordered.disjointRegions {map : DsoMap} (h : Ordered map) : DisjointRegions map where
  key := h.key
  disjoint a ha b hb hne := by
    have := h.key a ha
    have := h.key b hb
    rcases lt_or_gt_of_ne hne with hlt | hlt
    · simp [Dso.intersects, h.disjoint a ha b hb hlt]
      omega
    · simp [Dso.intersects, h.disjoint b hb a ha hlt]
      omega

theorem WellFormed.ordered {pid : ℤ} {map : DsoMap} (h : WellFormed pid map) : Ordered map :=
  ⟨h.key, fun e he => (h.proper e he).le, h.disjoint⟩

theorem wellFormed_empty (pid : ℤ) : WellFormed pid .empty := by
  constructor <;> intro e he <;> exact absurd he (not_mem_empty e)

/-- What is left of the entries of `map` after `d` has been mapped over them. -/
inductive Remnant (map : DsoMap) (d : Dso) : ℕ × Dso → Prop
  | untouched {e : ℕ × Dso} (he : e ∈ map) (ho : e.2.intersects d = false) : Remnant map d e
  | left {x : ℕ × Dso} (hx : x ∈ map) (ho : x.2.intersects d = true)
      (ha : isIntersectionAllowed x.2 d = true) (hlt : x.2.start < d.start) :
      Remnant map d (x.1, x.2.adjustEnd (d.start - 1))
  | right {x : ℕ × Dso} (hx : x ∈ map) (ho : x.2.intersects d = true)
      (ha : isIntersectionAllowed x.2 d = true) (hlt : d.endAddr < x.2.endAddr) :
      Remnant map d (d.endAddr + 1, x.2.adjustStart (d.endAddr + 1))

section Intersection

variable {map : DsoMap} {d : Dso}

/-- The first iterator of `get_intersection` splits the map at the regions that
start after the start of `d` or end at or after it. -/
theorem atOrAfter_intersectionFirst (hw : DisjointRegions map) {e : ℕ × Dso} (he : e ∈ map) :
    AtOrAfter e.1 (intersectionFirst map d) ↔ d.start < e.1 ∨ d.start ≤ e.2.endAddr := by
  have hup := atOrAfter_upperBound (k := d.start) he
  unfold intersectionFirst
  simp only
  split_ifs with hbegin
  · have := not_before_begin he
    rw [← hbegin, not_before_iff, hup] at this
    rw [hup]
    omega
  · split
    · rename_i hprev
      have := prev_eq_none hprev e he
      rw [not_before_iff, hup] at this
      rw [hup]
      omega
    · rename_i p hprev
      obtain ⟨hp, ⟨v, hv⟩, hlast⟩ := prev_eq_some hprev
      have hvkey : p = v.start := hw.key _ hv
      have hpd : p ≤ d.start := by
        by_contra hlt
        exact not_before_iff.mpr ((atOrAfter_upperBound hv).mpr (not_le.mp hlt)) hp
      -- everything that starts at or before `d.start` stands at or before `p`
      have hbefore : e.1 ≤ d.start → e.1 ≤ p := fun hed =>
        hlast e he (by rw [← not_not (a := Before _ _), not_before_iff, hup]; omega)
      have hends : e.1 < p → e.2.endAddr < v.start := hw.endAddr_lt he hv
      have hsame : e.1 = p → e.2 = v := fun h => by
        rw [eq_of_mem_of_key he hv h]
      rw [find_eq_some.mpr hv]
      simp only [Option.any_some, decide_eq_true_eq]
      split_ifs with hreach
      · rw [atOrAfter_some]
        rcases lt_trichotomy e.1 p with h | h | h
        · have := hends h
          omega
        · have := hsame h
          subst this
          omega
        · omega
      · rw [hup]
        rcases lt_trichotomy e.1 p with h | h | h
        · have := hends h
          omega
        · have := hsame h
          subst this
          omega
        · omega

theorem exists_mem_of_intersectionFirst {k : ℕ} (h : intersectionFirst map d = some k) :
    ∃ f, (k, f) ∈ map := by
  have hupper : ∀ k', map.upperBound d.start = some k' → ∃ f, (k', f) ∈ map :=
    fun _ hk' => (upperBound_eq_some hk').2.1
  unfold intersectionFirst at h
  simp only at h
  split_ifs at h
  · exact hupper k h
  · split at h
    · exact hupper k h
    · rename_i p hp
      split_ifs at h
      · cases h
        exact (prev_eq_some hp).2.1
      · exact hupper k h

/-- What the range of `get_intersection` holds, where the end of `d` has a successor. -/
theorem mem_range_getIntersection (hw : DisjointRegions map) (hend : d.endAddr + 1 < addrSpace)
    {e : ℕ × Dso} (he : e ∈ map) :
    AtOrAfter e.1 (getIntersection map d).1 ∧ Before e.1 (getIntersection map d).2 ↔
      e.1 ≤ d.endAddr ∧ (d.start < e.1 ∨ d.start ≤ e.2.endAddr) := by
  have hfirst := atOrAfter_intersectionFirst (d := d) hw he
  unfold getIntersection
  cases hf : intersectionFirst map d with
  | none =>
    rw [hf] at hfirst
    simp only [not_atOrAfter_none, false_iff] at hfirst
    simp [hfirst]
  | some k =>
    rw [hf, atOrAfter_some] at hfirst
    simp only [atOrAfter_some]
    split_ifs with hk
    · rw [before_some]
      omega
    · rw [Nat.mod_eq_of_lt hend, before_lowerBound he]
      omega

/-- The range of `get_intersection` holds exactly the regions that intersect `d`. -/
theorem mem_getIntersection (hw : Ordered map) (hd : d.Proper) {e : ℕ × Dso}
    (he : e ∈ map) :
    AtOrAfter e.1 (getIntersection map d).1 ∧ Before e.1 (getIntersection map d).2 ↔
      e.2.intersects d = true := by
  have hkey := hw.key e he
  have hle := hw.le e he
  have hend := hd.endAddr_lt
  rw [mem_range_getIntersection hw.disjointRegions (by omega) he,
    Dso.intersects_iff hle hd.le]
  omega

theorem first_mem_of_ne (hw : Ordered map) (hd : d.Proper)
    (hne : (getIntersection map d).1 ≠ (getIntersection map d).2) :
    ∃ k f, (getIntersection map d).1 = some k ∧ (k, f) ∈ map ∧ f.intersects d = true := by
  cases hf : intersectionFirst map d with
  | none => simp [getIntersection, hf] at hne
  | some k =>
    obtain ⟨f, hmem⟩ := exists_mem_of_intersectionFirst hf
    have hkey : k = f.start := hw.key _ hmem
    have hle : f.start ≤ f.endAddr := hw.le _ hmem
    have hreach : d.start < k ∨ d.start ≤ f.endAddr := by
      rw [← atOrAfter_intersectionFirst hw.disjointRegions hmem, hf, atOrAfter_some]
    have hkd : k ≤ d.endAddr := by
      by_contra hlt
      simp [getIntersection, hf, not_le.mp hlt] at hne
    refine ⟨k, f, hf, hmem, ?_⟩
    rw [Dso.intersects_iff hle hd.le]
    omega

end Intersection

section Erase

variable {map : DsoMap} {d : Dso}

/-- The tail of `erase_range` removes the range and puts back the truncated first
mapping where that is allowed. -/
theorem eraseFromFirst_spec (d : Dso) (last : Iter ℕ) {k : ℕ} {f : Dso} (hf : (k, f) ∈ map)
    (hlast : Before k last) :
    ∃ map', eraseFromFirst map (some k) last d = .ok map' ∧ ∀ e, e ∈ map' ↔
      (e ∈ map ∧ ¬ (AtOrAfter e.1 (some k) ∧ Before e.1 last)) ∨
      (f.start < d.start ∧ isIntersectionAllowed f d = true ∧
        e = (k, f.adjustEnd (d.start - 1))) := by
  unfold eraseFromFirst
  simp only [find_eq_some.mpr hf]
  split_ifs with hcut
  · refine ⟨_, rfl, fun e => ?_⟩
    have hmem {e : ℕ × Dso} := mem_modify_of_mem (e := e) hf (Dso.adjustEnd (d.start - 1))
    rw [mem_eraseRange]
    constructor
    · rintro ⟨he, hout⟩
      rw [atOrAfter_upperBound he] at hout
      rcases hmem.mp he with ⟨hm, hk⟩ | rfl
      · refine .inl ⟨hm, ?_⟩
        rw [atOrAfter_some]
        rintro ⟨h1, h2⟩
        exact hout ⟨lt_of_le_of_ne h1 (Ne.symm hk), h2⟩
      · exact .inr ⟨hcut.1, hcut.2, rfl⟩
    · rintro (⟨hm, hout⟩ | ⟨_, _, rfl⟩)
      · have hk : e.1 ≠ k := by
          rintro rfl
          exact hout ⟨le_rfl, hlast⟩
        have he := hmem.mpr (.inl ⟨hm, hk⟩)
        refine ⟨he, ?_⟩
        rw [atOrAfter_upperBound he]
        rintro ⟨h1, h2⟩
        exact hout ⟨le_of_lt h1, h2⟩
      · have he := hmem.mpr (.inr rfl)
        refine ⟨he, ?_⟩
        rw [atOrAfter_upperBound he]
        exact fun h => lt_irrefl _ h.1
  · refine ⟨_, rfl, fun e => ?_⟩
    rw [mem_eraseRange]
    exact ⟨.inl, fun h => h.elim id fun h' => absurd ⟨h'.1, h'.2.1⟩ hcut⟩

structure Ends (map : DsoMap) (d : Dso) (first last : ℕ × Dso) : Prop where
  first_mem : first ∈ map
  last_mem : last ∈ map
  first_intersects : first.2.intersects d = true
  last_intersects : last.2.intersects d = true
  first_le : ∀ e ∈ map, e.2.intersects d = true → first.1 ≤ e.1
  le_last : ∀ e ∈ map, e.2.intersects d = true → e.1 ≤ last.1

/-- A non-empty intersection has both ends, and they are where `erase_range`
looks for them. -/
theorem exists_ends (hw : Ordered map) (hd : d.Proper)
    (hne : (getIntersection map d).1 ≠ (getIntersection map d).2) :
    ∃ first last, Ends map d first last ∧ (getIntersection map d).1 = some first.1 ∧
      map.prev (getIntersection map d).2 = some last.1 := by
  obtain ⟨k, f, hk, hf, hfi⟩ := first_mem_of_ne hw hd hne
  have hrange := fun e he => @mem_getIntersection map d hw hd e he
  rw [hk] at hrange
  have hfb := ((hrange _ hf).mpr hfi).2
  cases hp : map.prev (getIntersection map d).2 with
  | none => exact absurd hfb (prev_eq_none hp _ hf)
  | some l =>
    obtain ⟨hlb, ⟨lm, hlm⟩, hlast⟩ := prev_eq_some hp
    have hli : lm.intersects d = true := (hrange _ hlm).mp ⟨hlast _ hf hfb, hlb⟩
    refine ⟨(k, f), (l, lm), ⟨hf, hlm, hfi, hli, ?_, ?_⟩, hk, rfl⟩
    · exact fun e he hi => ((hrange e he).mpr hi).1
    · exact fun e he hi => hlast e he ((hrange e he).mpr hi).2

namespace Ends

variable {first last : ℕ × Dso}

/-- Only the first region can reach below the start of `d`. -/
theorem eq_first (h : Ends map d first last) (hw : Ordered map) (hd : d.Proper)
    {x : ℕ × Dso} (hx : x ∈ map) (hi : x.2.intersects d = true) (hlt : x.2.start < d.start) :
    x = first := by
  refine eq_of_mem_of_key hx h.first_mem (le_antisymm ?_ (h.first_le x hx hi)).symm.symm
  by_contra hgt
  have hends := hw.disjoint _ h.first_mem x hx (not_le.mp hgt)
  have := (Dso.intersects_iff (hw.le _ h.first_mem) hd.le).mp h.first_intersects
  omega

/-- Only the last region can reach above the end of `d`. -/
theorem eq_last (h : Ends map d first last) (hw : Ordered map) (hd : d.Proper)
    {x : ℕ × Dso} (hx : x ∈ map) (hi : x.2.intersects d = true)
    (hlt : d.endAddr < x.2.endAddr) : x = last := by
  refine eq_of_mem_of_key hx h.last_mem (le_antisymm (h.le_last x hx hi) ?_)
  by_contra hgt
  have hends := hw.disjoint x hx _ h.last_mem (not_le.mp hgt)
  have := (Dso.intersects_iff (hw.le _ h.last_mem) hd.le).mp h.last_intersects
  omega

/-- When the last region reaches above `d`, the regions after it start later than
right after `d`. -/
theorem succ_lt (h : Ends map d first last) (hw : Ordered map)
    (hlt : d.endAddr < last.2.endAddr) {e : ℕ × Dso} (he : e ∈ map) (hle : last.1 < e.1) :
    d.endAddr + 1 < e.1 := by
  have hends := hw.disjoint _ h.last_mem e he hle
  have := hw.key e he
  omega

theorem last_le (h : Ends map d first last) (hw : Ordered map) (hd : d.Proper) :
    last.1 ≤ d.endAddr := by
  have := (Dso.intersects_iff (hw.le _ h.last_mem) hd.le).mp h.last_intersects
  have := hw.key _ h.last_mem
  omega

/-- The key of the remnant above `d` is free. -/
theorem ne_succ (h : Ends map d first last) (hw : Ordered map) (hd : d.Proper)
    (hlt : d.endAddr < last.2.endAddr) {e : ℕ × Dso} (he : e ∈ map) : e.1 ≠ d.endAddr + 1 := by
  intro heq
  have := h.last_le hw hd
  have := h.succ_lt hw hlt he (by omega)
  omega

theorem mem_split (h : Ends map d first last) (hw : Ordered map) (hd : d.Proper)
    (hlt : d.endAddr < last.2.endAddr) (ha : isIntersectionAllowed last.2 d = true)
    (hst : last.2.start < d.start) (e : ℕ × Dso) :
    e ∈ (map.insertOrAssign (d.endAddr + 1) (last.2.adjustStart (d.endAddr + 1))).modify last.1
        (Dso.adjustEnd (d.start - 1)) ↔ Remnant map d e := by
  have hkey := hw.key _ h.last_mem
  have hle := h.last_le hw hd
  have hfirst : last = first := h.eq_first hw hd h.last_mem h.last_intersects hst
  have hlast : (last.1, last.2) ∈
      map.insertOrAssign (d.endAddr + 1) (last.2.adjustStart (d.endAddr + 1)) :=
    mem_insertOrAssign.mpr (.inr ⟨h.last_mem, h.ne_succ hw hd hlt h.last_mem⟩)
  rw [mem_modify_of_mem hlast, mem_insertOrAssign]
  constructor
  · rintro (⟨rfl | ⟨he, _⟩, hne⟩ | rfl)
    · exact .right h.last_mem h.last_intersects ha hlt
    · refine .untouched he (Bool.eq_false_iff.mpr fun hi => hne ?_)
      exact le_antisymm (h.le_last e he hi) (hfirst ▸ h.first_le e he hi)
    · exact .left h.last_mem h.last_intersects ha hst
  · rintro (⟨he, ho⟩ | ⟨hx, hi, _, hlt'⟩ | ⟨hx, hi, _, hlt'⟩)
    · refine .inl ⟨.inr ⟨he, h.ne_succ hw hd hlt he⟩, fun heq => ?_⟩
      rw [eq_of_mem_of_key he h.last_mem heq, h.last_intersects] at ho
      cases ho
    · rw [h.eq_first hw hd hx hi hlt', hfirst]
      exact .inr rfl
    · rw [h.eq_last hw hd hx hi hlt']
      exact .inl ⟨.inl rfl, by simp only; omega⟩

/-- Extracting the node of the last region and inserting it again above `d` succeeds. -/
theorem insert_rekeyed (h : Ends map d first last) (hw : Ordered map) (hd : d.Proper)
    (hlt : d.endAddr < last.2.endAddr) :
    ∃ map', (map.eraseKey last.1).insert (d.endAddr + 1)
        (last.2.adjustStart (d.endAddr + 1)) = (map', true) ∧
      ∀ e, e ∈ map' ↔ e = (d.endAddr + 1, last.2.adjustStart (d.endAddr + 1)) ∨
        e ∈ map ∧ e.1 ≠ last.1 := by
  refine ⟨_, insert_of_fresh _ fun e he => h.ne_succ hw hd hlt (mem_eraseKey.mp he).1, ?_⟩
  intro e
  rw [mem_insertOrAssign, mem_eraseKey]
  exact or_congr_right ⟨And.left, fun he => ⟨he, h.ne_succ hw hd hlt he.1⟩⟩

end Ends

theorem exists_mem_of_getIntersection {k : ℕ} (h : (getIntersection map d).2 = some k) :
    ∃ v, (k, v) ∈ map := by
  unfold getIntersection at h
  cases hf : intersectionFirst map d with
  | none => simp [hf] at h
  | some first =>
    simp only [hf] at h
    split_ifs at h
    · cases h
      exact exists_mem_of_intersectionFirst hf
    · exact (lowerBound_eq_some h).2.1

/-- After the last region has been re-keyed, the end of the range moves back to it. -/
theorem prev_rekeyed {first last : ℕ × Dso} (h : Ends map d first last)
    (hw : Ordered map) (hd : d.Proper) (hlt : d.endAddr < last.2.endAddr)
    (hprev : map.prev (getIntersection map d).2 = some last.1) {map' : DsoMap}
    (hmap' : ∀ e, e ∈ map' ↔ e = (d.endAddr + 1, last.2.adjustStart (d.endAddr + 1)) ∨
      e ∈ map ∧ e.1 ≠ last.1) :
    map'.prev (getIntersection map d).2 = some (d.endAddr + 1) := by
  obtain ⟨hlb, -, hlast⟩ := prev_eq_some hprev
  have hmoved : (d.endAddr + 1, last.2.adjustStart (d.endAddr + 1)) ∈ map' :=
    (hmap' _).mpr (.inl rfl)
  have hb : Before (d.endAddr + 1) (getIntersection map d).2 := by
    cases h2 : (getIntersection map d).2 with
    | none => exact before_none _
    | some k =>
      obtain ⟨v, hv⟩ := exists_mem_of_getIntersection h2
      rw [h2, before_some] at hlb
      exact h.succ_lt hw hlt hv hlb
  cases hp : map'.prev (getIntersection map d).2 with
  | none => exact absurd hb (prev_eq_none hp _ hmoved)
  | some p =>
    obtain ⟨hpb, ⟨v, hv⟩, hmax⟩ := prev_eq_some hp
    rcases (hmap' _).mp hv with heq | ⟨hm, -⟩
    · exact congrArg (fun e => some e.1) heq
    · -- an old entry before the end of the range stands at or before `last`
      have hp1 : p ≤ last.1 := hlast _ hm hpb
      have hp2 : d.endAddr + 1 ≤ p := hmax _ hmoved hb
      have := h.last_le hw hd
      omega

/-- Case where the last region is kept above `d` and is the only one: re-keying
is all there is to do. -/
theorem mem_rekeyed_single {last : ℕ × Dso} (h : Ends map d last last)
    (hw : Ordered map) (hd : d.Proper) (hlt : d.endAddr < last.2.endAddr)
    (ha : isIntersectionAllowed last.2 d = true) (hst : d.start ≤ last.2.start) (e : ℕ × Dso) :
    (e = (d.endAddr + 1, last.2.adjustStart (d.endAddr + 1)) ∨ e ∈ map ∧ e.1 ≠ last.1) ↔
      Remnant map d e := by
  constructor
  · rintro (rfl | ⟨he, hk⟩)
    · exact .right h.last_mem h.last_intersects ha hlt
    · refine .untouched he (Bool.eq_false_iff.mpr fun hi => hk ?_)
      exact le_antisymm (h.le_last e he hi) (h.first_le e he hi)
  · rintro (⟨he, ho⟩ | ⟨hx, hi, _, hlt'⟩ | ⟨hx, hi, _, hlt'⟩)
    · refine .inr ⟨he, fun heq => ?_⟩
      rw [eq_of_mem_of_key he h.last_mem heq, h.last_intersects] at ho
      cases ho
    · rw [h.eq_first hw hd hx hi hlt'] at hlt'
      omega
    · rw [h.eq_last hw hd hx hi hlt']
      exact .inl rfl

/-- Case where the last region is kept above `d` and others stand before it. -/
theorem eraseFromFirst_rekeyed {first last : ℕ × Dso} (h : Ends map d first last)
    (hw : Ordered map) (hd : d.Proper) (hlt : d.endAddr < last.2.endAddr)
    (ha : isIntersectionAllowed last.2 d = true) (hfl : first.1 ≠ last.1) {map' : DsoMap}
    (hmap' : ∀ e, e ∈ map' ↔ e = (d.endAddr + 1, last.2.adjustStart (d.endAddr + 1)) ∨
      e ∈ map ∧ e.1 ≠ last.1) :
    ∃ map'', eraseFromFirst map' (some first.1) (some (d.endAddr + 1)) d = .ok map'' ∧
      ∀ e, e ∈ map'' ↔ Remnant map d e := by
  have hfle : first.1 ≤ d.endAddr :=
    (h.le_last _ h.first_mem h.first_intersects).trans (h.last_le hw hd)
  have hfm : (first.1, first.2) ∈ map' := (hmap' _).mpr (.inr ⟨h.first_mem, hfl⟩)
  obtain ⟨map'', hok, hmem⟩ := eraseFromFirst_spec d (some (d.endAddr + 1)) hfm
    (Nat.lt_succ_of_le hfle)
  refine ⟨map'', hok, fun e => ?_⟩
  rw [hmem, hmap', atOrAfter_some, before_some]
  constructor
  · rintro (⟨rfl | ⟨he, hk⟩, hout⟩ | ⟨hst, ha', rfl⟩)
    · exact .right h.last_mem h.last_intersects ha hlt
    · refine .untouched he (Bool.eq_false_iff.mpr fun hi => hout ⟨h.first_le e he hi, ?_⟩)
      have := h.le_last e he hi
      have := h.last_le hw hd
      omega
    · exact .left h.first_mem h.first_intersects ha' hst
  · rintro (⟨he, ho⟩ | ⟨hx, hi, ha', hlt'⟩ | ⟨hx, hi, _, hlt'⟩)
    · refine .inl ⟨.inr ⟨he, fun heq => ?_⟩, fun hin => ?_⟩
      · rw [eq_of_mem_of_key he h.last_mem heq, h.last_intersects] at ho
        cases ho
      · -- a region between the first one and the end of `d` intersects `d`
        have hi : e.2.intersects d = true := by
          rw [Dso.intersects_iff (hw.le e he) hd.le]
          have hf := (Dso.intersects_iff (hw.le _ h.first_mem) hd.le).mp
            h.first_intersects
          have hek := hw.key e he
          have hle := (hw.le e he)
          refine ⟨by omega, ?_⟩
          rcases eq_or_lt_of_le hin.1 with heq | hlt'
          · rw [← eq_of_mem_of_key h.first_mem he heq]
            exact hf.2
          · have := hw.disjoint _ h.first_mem e he hlt'
            omega
        rw [hi] at ho
        cases ho
    · obtain rfl := h.eq_first hw hd hx hi hlt'
      exact .inr ⟨hlt', ha', rfl⟩
    · rw [h.eq_last hw hd hx hi hlt']
      exact .inl ⟨.inl rfl, fun hin => lt_irrefl _ hin.2⟩

theorem eraseFromFirst_range {first last : ℕ × Dso} (h : Ends map d first last)
    (hw : Ordered map) (hd : d.Proper)
    (hno : ¬ (d.endAddr < last.2.endAddr ∧ isIntersectionAllowed last.2 d = true))
    (hfirst : (getIntersection map d).1 = some first.1) :
    ∃ map', eraseFromFirst map (some first.1) (getIntersection map d).2 d = .ok map' ∧
      ∀ e, e ∈ map' ↔ Remnant map d e := by
  have hrange := fun e he => @mem_getIntersection map d hw hd e he
  rw [hfirst] at hrange
  have hfb := ((hrange _ h.first_mem).mpr h.first_intersects).2
  obtain ⟨map', hok, hmem⟩ := eraseFromFirst_spec d _ h.first_mem hfb
  refine ⟨map', hok, fun e => ?_⟩
  rw [hmem]
  constructor
  · rintro (⟨he, hout⟩ | ⟨hst, ha, rfl⟩)
    · rw [hrange e he, Bool.not_eq_true] at hout
      exact .untouched he hout
    · exact .left h.first_mem h.first_intersects ha hst
  · rintro (⟨he, ho⟩ | ⟨hx, hi, ha, hlt⟩ | ⟨hx, hi, ha, hlt⟩)
    · exact .inl ⟨he, by rw [hrange e he, Bool.not_eq_true]; exact ho⟩
    · obtain rfl := h.eq_first hw hd hx hi hlt
      exact .inr ⟨hlt, ha, rfl⟩
    · obtain rfl := h.eq_last hw hd hx hi hlt
      exact absurd ⟨hlt, ha⟩ hno

/-- `erase_range` leaves exactly the remnants; in particular it never reaches the
fatal check. -/
theorem eraseRange_spec (hw : Ordered map) (hd : d.Proper)
    (hne : (getIntersection map d).1 ≠ (getIntersection map d).2) :
    ∃ map', eraseRange map (getIntersection map d) d = .ok map' ∧
      ∀ e, e ∈ map' ↔ Remnant map d e := by
  obtain ⟨first, last, h, hfirst, hprev⟩ := exists_ends hw hd hne
  have hnext : (d.endAddr + 1) % addrSpace = d.endAddr + 1 :=
    Nat.mod_eq_of_lt (by have := hd.endAddr_lt; omega)
  unfold eraseRange
  rw [if_neg hne]
  simp only [hprev, find_eq_some.mpr h.last_mem, hnext]
  by_cases hover : d.endAddr < last.2.endAddr ∧ isIntersectionAllowed last.2 d = true
  · rw [if_pos hover]
    by_cases hsplit : last.2.start < d.start
    · rw [if_pos hsplit]
      exact ⟨_, rfl, h.mem_split hw hd hover.1 hover.2 hsplit⟩
    · obtain ⟨map', hins, hmap'⟩ := h.insert_rekeyed hw hd hover.1
      simp only [if_neg hsplit, hins, hfirst, Bool.not_true, Bool.false_eq_true, if_false,
        prev_rekeyed h hw hd hover.1 hprev hmap']
      split_ifs with hone
      · have hfl : first = last :=
          eq_of_mem_of_key h.first_mem h.last_mem (Option.some.inj hone)
        subst hfl
        refine ⟨map', rfl, fun e => ?_⟩
        rw [hmap', mem_rekeyed_single h hw hd hover.1 hover.2 (not_lt.mp hsplit)]
      · exact eraseFromFirst_rekeyed h hw hd hover.1 hover.2 (fun heq => hone (by rw [heq]))
          hmap'
  · rw [if_neg hover, hfirst]
    exact eraseFromFirst_range h hw hd hover hfirst

end Erase

end Ddprof
