import Ddprof.Dso.Regions

/-!
The two functions of the region map that return a pair of iterators:
`get_intersection`, the regions that a new one touches, and `get_elf_range`, the
neighbours of a region that map the same file.
-/

namespace Ddprof

open OrderedMap

section Intersection

variable {map : DsoMap} {d : Dso}

/-- A region intersects `d` when it starts by the end of `d` and does not lie before
its start. -/
theorem intersects_iff_of_le (hd : d.start ≤ d.endAddr) (e : Dso) :
    e.intersects d = true ↔
      e.start ≤ d.endAddr ∧ (d.start ≤ e.start ∨ d.start ≤ e.endAddr) := by
  unfold Dso.intersects
  split_ifs <;> simp <;> omega

/-- The last iterator does not stand before the first, where the end of `d` has a
successor. -/
theorem atOrAfter_fst_of_snd (hw : DisjointRegions map) (hd : d.start ≤ d.endAddr)
    (hend : d.endAddr + 1 < addrSpace) {e : ℕ × Dso} (he : e ∈ map)
    (hlast : AtOrAfter e.1 (getIntersection map d).2) :
    AtOrAfter e.1 (getIntersection map d).1 := by
  have hfirst := atOrAfter_intersectionFirst (d := d) hw he
  unfold getIntersection at hlast ⊢
  cases hf : intersectionFirst map d with
  | none => simp [hf] at hlast
  | some k =>
    simp only [hf] at hlast
    split_ifs at hlast with hk
    · exact hlast
    · rw [← not_before_iff, Nat.mod_eq_of_lt hend, before_lowerBound he] at hlast
      rw [← hf]
      exact hfirst.mpr (.inl (by omega))

/-- At the last address `end + 1` is zero, and the search for the last iterator
returns the beginning of the map. -/
theorem getIntersection_at_top (htop : d.endAddr + 1 = addrSpace)
    (hbits : ∀ e ∈ map, e.1 < addrSpace) :
    map.entriesFrom (getIntersection map d).1 = [] ∨
      map.entriesFrom (getIntersection map d).2 = map.entries := by
  unfold getIntersection
  cases hf : intersectionFirst map d with
  | none => exact .inl (by simp [entriesFrom])
  | some k =>
    obtain ⟨f, hmem⟩ := exists_mem_of_intersectionFirst hf
    have hk : ¬ d.endAddr < k := by
      have := hbits _ hmem
      simp only at this
      omega
    right
    simp only [if_neg hk, htop, Nat.mod_self]
    refine List.filter_eq_self.mpr fun e he => decide_eq_true ?_
    rw [← not_before_iff, before_lowerBound (mem_def.mpr he)]
    exact Nat.not_lt_zero _

/-- `get_intersection` delimits exactly the regions that intersect `d` if and only if
no region without an address starts where `d` does, and `d` does not reach the last
address of the address space, or nothing intersects it. -/
theorem getIntersection_isRange_iff (hw : DisjointRegions map)
    (hbits : ∀ e ∈ map, e.1 < addrSpace) (hd : d.start ≤ d.endAddr)
    (hdbits : d.endAddr < addrSpace) :
    map.IsRange (getIntersection map d).1 (getIntersection map d).2
        (map.entries.filter fun e => e.2.intersects d) ↔
      (∀ e ∈ map, e.1 = d.start → e.2.start ≤ e.2.endAddr) ∧
        (d.endAddr < addrSpace - 1 ∨ ∀ e ∈ map, e.2.intersects d = false) := by
  constructor
  · intro hrange
    have hvisited : ∀ e ∈ map, e.2.intersects d = true →
        AtOrAfter e.1 (getIntersection map d).1 := by
      intro e he hi
      have hl : e ∈ map.entriesFrom (getIntersection map d).1 := by
        rw [hrange]
        exact List.mem_append_left _ (List.mem_filter.mpr ⟨he, hi⟩)
      exact (mem_entriesFrom.mp hl).2
    refine ⟨fun e he hstart => ?_, ?_⟩
    · have hkey := hw.key e he
      have hin := hvisited e he ((intersects_iff_of_le hd e.2).mpr (by omega))
      have := (atOrAfter_intersectionFirst hw he).mp hin
      omega
    · by_contra hcon
      obtain ⟨hlast, hsome⟩ := not_or.mp hcon
      have htop : d.endAddr + 1 = addrSpace := by omega
      push Not at hsome
      obtain ⟨e, he, hi⟩ := hsome
      have hmem : e ∈ map.entries.filter fun e => e.2.intersects d :=
        List.mem_filter.mpr ⟨he, by simpa using hi⟩
      rcases getIntersection_at_top htop hbits with hnil | hall
      · rw [IsRange, hnil] at hrange
        rw [(List.append_eq_nil_iff.mp hrange.symm).1] at hmem
        exact absurd hmem List.not_mem_nil
      · -- the range would hold more entries than the map
        have hlen := congrArg List.length hrange
        rw [hall, List.length_append] at hlen
        have hle : (map.entriesFrom (getIntersection map d).1).length ≤ map.entries.length :=
          List.length_filter_le _ _
        have := List.length_pos_of_mem hmem
        omega
  · rintro ⟨hproper, hcase⟩
    by_cases hend : d.endAddr < addrSpace - 1
    · have hnext : d.endAddr + 1 < addrSpace := by omega
      have hexact : ∀ e ∈ map.entries, e.2.intersects d =
          decide (AtOrAfter e.1 (getIntersection map d).1 ∧
            Before e.1 (getIntersection map d).2) := by
        intro e he
        have hkey := hw.key e he
        have hstart := hproper e he
        rw [Bool.eq_iff_iff, decide_eq_true_iff, mem_range_getIntersection hw hnext he,
          intersects_iff_of_le hd]
        omega
      rw [List.filter_congr hexact]
      exact isRange_filter fun e he => atOrAfter_fst_of_snd hw hd hnext he
    · have hnone := hcase.resolve_left hend
      have hfirst : intersectionFirst map d = none := by
        by_contra hsome
        obtain ⟨k, hk⟩ := Option.ne_none_iff_exists'.mp hsome
        obtain ⟨f, hmem⟩ := exists_mem_of_intersectionFirst hk
        have hkey : k = f.start := hw.key _ hmem
        have hlt : k < addrSpace := hbits _ hmem
        have hreach : d.start < k ∨ d.start ≤ f.endAddr := by
          rw [← atOrAfter_intersectionFirst hw hmem, hk, atOrAfter_some]
        have hi : f.intersects d = true := (intersects_iff_of_le hd f).mpr (by omega)
        rw [hnone _ hmem] at hi
        exact absurd hi (by decide)
      have hnil : map.entries.filter (fun e => e.2.intersects d) = [] :=
        List.filter_eq_nil_iff.mpr fun e he => by simp [hnone e he]
      simp [IsRange, getIntersection, hfirst, hnil]

/-- Two regions of one page each. -/
def pages : DsoMap :=
  ⟨[(0x1000, { Dso.invalid with start := 0x1000, endAddr := 0x1fff }),
    (0x3000, { Dso.invalid with start := 0x3000, endAddr := 0x3fff })], by decide⟩

theorem disjointRegions_pages : DisjointRegions pages where
  key := (by decide : ∀ e ∈ pages.entries, e.1 = e.2.start)
  disjoint := (by decide : ∀ a ∈ pages.entries, ∀ b ∈ pages.entries,
    a.1 ≠ b.1 → a.2.intersects b.2 = false)

theorem getIntersection_isRange_iff_pages :
    let d := { Dso.invalid with start := 0x3500, endAddr := 0x7fff }
    pages.IsRange (getIntersection pages d).1 (getIntersection pages d).2
      (pages.entries.filter fun e => e.2.intersects d) :=
  (getIntersection_isRange_iff disjointRegions_pages
    (by decide : ∀ e ∈ pages.entries, e.1 < addrSpace) (by decide) (by decide)).mpr
    ⟨(by decide : ∀ e ∈ pages.entries, e.1 = 0x3500 → e.2.start ≤ e.2.endAddr),
      .inl (by decide)⟩

/-- A region up to the last address meets the second page only, and the range found
for it goes from the second page to the first. -/
theorem getIntersection_backwards :
    let d := { Dso.invalid with start := 0x3500, endAddr := addrSpace - 1 }
    DisjointRegions pages ∧ d.start ≤ d.endAddr ∧ d.endAddr < addrSpace ∧
      getIntersection pages d = (some 0x3000, some 0x1000) ∧
      ¬ pages.IsRange (getIntersection pages d).1 (getIntersection pages d).2
        (pages.entries.filter fun e => e.2.intersects d) := by
  refine ⟨disjointRegions_pages, by decide, by decide, by decide, ?_⟩
  unfold IsRange
  decide

end Intersection

/-! ### `get_elf_range` -/

/-- A prefix whose elements all pass a test ends by the first element that does not. -/
private theorem prefix_of_stop {α : Type} {p : α → Bool} {l run rest : List α}
    (hl : l <+: run ++ rest) (hall : ∀ x ∈ l, p x = true) (hrest : ∀ x ∈ rest.head?, p x = false) :
    l <+: run := by
  rcases List.prefix_or_prefix_of_prefix hl (List.prefix_append run rest) with h | ⟨t, rfl⟩
  · exact h
  · cases t with
    | nil => simp
    | cons y t =>
      obtain ⟨b, hb⟩ := (List.prefix_append_right_inj run).mp hl
      have hy := hall y (by simp)
      rw [hrest y (by simp [← hb])] at hy
      exact absurd hy (by decide)

private theorem suffix_of_stop {α : Type} {p : α → Bool} {l skip run : List α}
    (hl : l <:+ skip ++ run) (hall : ∀ x ∈ l, p x = true)
    (hskip : ∀ x ∈ skip.getLast?, p x = false) : l <:+ run := by
  rw [← List.reverse_prefix] at hl ⊢
  rw [List.reverse_append] at hl
  exact prefix_of_stop hl (by simpa using hall) (by simpa using hskip)

/-- The test `not_same_file` of the source, negated. -/
def sameFile (dso : Dso) (x : ℕ × Dso) : Bool :=
  decide (dso.inode = x.2.inode) && decide (dso.filename = x.2.filename)

theorem sameFile_iff {dso : Dso} {x : ℕ × Dso} :
    sameFile dso x = true ↔ x.2.inode = dso.inode ∧ x.2.filename = dso.filename := by
  rw [sameFile, Bool.and_eq_true, decide_eq_true_eq, decide_eq_true_eq, eq_comm,
    @eq_comm _ dso.filename]

/-- `it` comes with the entry it points at. The base of a reverse iterator is the
iterator after the entry, and the base of `rend` is `begin`. -/
def getElfRange (map : DsoMap) (it : ℕ × Dso) : DsoRange :=
  let dso := it.2
  let first := match (map.entriesBefore (some it.1)).reverse.find? (!sameFile dso ·) with
    | some x => map.upperBound x.1
    | none => map.begin
  let last := ((map.entriesFrom (map.upperBound it.1)).find? (!sameFile dso ·)).map Prod.fst
  (first, last)

section ElfRange

variable {map : DsoMap} {it : ℕ × Dso} {pre post : List (ℕ × Dso)}

/-- The entries that precede `it` end in a run of the same file, which the first
iterator delimits. -/
theorem getElfRange_fst (h : map.entries = pre ++ it :: post) :
    ∃ skip run, pre = skip ++ run ∧ (∀ x ∈ run, sameFile it.2 x = true) ∧
      (∀ x ∈ skip.getLast?, sameFile it.2 x = false) ∧
      map.entriesFrom (getElfRange map it).1 = run ++ it :: post := by
  simp only [getElfRange, entriesBefore_some h]
  cases hfind : pre.reverse.find? (!sameFile it.2 ·) with
  | none =>
    have hall := List.find?_eq_none.mp hfind
    refine ⟨[], pre, rfl, fun x hx => by simpa using hall x (by simpa using hx), by simp, ?_⟩
    simp only [entriesFrom_begin, h]
  | some x =>
    obtain ⟨hx, as, bs, hsplit, has⟩ := List.find?_eq_some_iff_append.mp hfind
    have hpre : pre = (bs.reverse ++ [x]) ++ as.reverse := by
      rw [← List.reverse_reverse pre, hsplit]
      simp
    refine ⟨bs.reverse ++ [x], as.reverse, hpre, fun y hy => ?_, ?_, ?_⟩
    · simpa using has y (by simpa using hy)
    · simpa using hx
    · have hx : map.entries = bs.reverse ++ x :: (as.reverse ++ it :: post) := by
        rw [h, hpre]
        simp
      exact entriesFrom_upperBound hx

/-- The entries that follow `it` start with a run of the same file, which the last
iterator delimits. -/
theorem getElfRange_snd (h : map.entries = pre ++ it :: post) :
    ∃ run rest, post = run ++ rest ∧ (∀ x ∈ run, sameFile it.2 x = true) ∧
      (∀ x ∈ rest.head?, sameFile it.2 x = false) ∧
      map.entriesFrom (getElfRange map it).2 = rest := by
  simp only [getElfRange, entriesFrom_upperBound h]
  cases hfind : post.find? (!sameFile it.2 ·) with
  | none =>
    have hall := List.find?_eq_none.mp hfind
    refine ⟨post, [], by simp, fun x hx => by simpa using hall x hx, by simp, ?_⟩
    simp [entriesFrom]
  | some x =>
    obtain ⟨hx, as, bs, hsplit, has⟩ := List.find?_eq_some_iff_append.mp hfind
    refine ⟨as, x :: bs, hsplit, fun y hy => by simpa using has y hy, by simpa using hx, ?_⟩
    have hx : map.entries = (pre ++ it :: as) ++ x :: bs := by
      rw [h, hsplit]
      simp
    exact entriesFrom_some hx

end ElfRange

/-- The range of `get_elf_range` contains `it` and regions of its file only, and every
range that does so lies in it. -/
theorem getElfRange_maximal {map : DsoMap} {it : ℕ × Dso} (hit : it ∈ map) :
    ∃ l, map.IsRange (getElfRange map it).1 (getElfRange map it).2 l ∧ it ∈ l ∧
      (∀ x ∈ l, x.2.inode = it.2.inode ∧ x.2.filename = it.2.filename) ∧
      ∀ first last l', map.IsRange first last l' → it ∈ l' →
        (∀ x ∈ l', x.2.inode = it.2.inode ∧ x.2.filename = it.2.filename) → l' <:+: l := by
  obtain ⟨pre, post, h⟩ := List.append_of_mem (mem_def.mp hit)
  obtain ⟨skip, before, hpre, hbefore, hskip, hfirst⟩ := getElfRange_fst h
  obtain ⟨after, rest, hpost, hafter, hrest, hlast⟩ := getElfRange_snd h
  refine ⟨before ++ it :: after, ?_, by simp, ?_, ?_⟩
  · rw [IsRange, hfirst, hlast, hpost]
    simp
  · intro x hx
    rcases List.mem_append.mp hx with hx | hx
    · exact sameFile_iff.mp (hbefore x hx)
    · rcases List.mem_cons.mp hx with rfl | hx
      · exact ⟨rfl, rfl⟩
      · exact sameFile_iff.mp (hafter x hx)
  · intro first last l' hrange hit' hsame
    obtain ⟨l₁, l₂, rfl⟩ := List.append_of_mem hit'
    obtain ⟨a, ha⟩ := map.entriesFrom_suffix first
    rw [hrange] at ha
    have h' : map.entries = (a ++ l₁) ++ it :: (l₂ ++ map.entriesFrom last) := by
      rw [← ha]
      simp
    -- both ways to split the map at `it` agree
    have hpre' : pre = a ++ l₁ := by rw [← entriesBefore_some h, entriesBefore_some h']
    have hpost' : post = l₂ ++ map.entriesFrom last := by
      rw [← entriesFrom_upperBound h, entriesFrom_upperBound h']
    have hl₁ : l₁ <:+ before :=
      suffix_of_stop ⟨a, by rw [← hpre', hpre]⟩
        (fun x hx => sameFile_iff.mpr (hsame x (by simp [hx]))) hskip
    have hl₂ : l₂ <+: after :=
      prefix_of_stop ⟨_, by rw [← hpost', hpost]⟩
        (fun x hx => sameFile_iff.mpr (hsame x (by simp [hx]))) hrest
    obtain ⟨s, rfl⟩ := hl₁
    obtain ⟨t, rfl⟩ := hl₂
    exact ⟨s, t, by simp⟩

theorem getElfRange_maximal_pages :
    let it := (0x1000, { Dso.invalid with start := 0x1000, endAddr := 0x1fff })
    it ∈ pages ∧ ∃ l, pages.IsRange (getElfRange pages it).1 (getElfRange pages it).2 l ∧ it ∈ l :=
  have hit : (0x1000, { Dso.invalid with start := 0x1000, endAddr := 0x1fff }) ∈ pages.entries := by
    decide
  ⟨hit, (getElfRange_maximal hit).imp fun _ h => ⟨h.1, h.2.1⟩⟩

end Ddprof
