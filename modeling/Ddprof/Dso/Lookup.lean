import Ddprof.Dso.Invariants

/-!
What an insertion does to the mapping found at an address.

`dso_find_closest` finds the region that contains an address. After `d` has been
inserted, an address inside `d` finds `d`; an address outside finds what is left
of the region it found before. The remnant above `d` keeps the file offset of
the whole region although it starts later, so the file offset that is derived
for an address changes there, and only there.
-/

namespace Ddprof

open OrderedMap

/-- The mapping that `dso_find_closest` finds at an address. -/
def dsoFound (map : DsoMap) (addr : ℕ) : Option Dso :=
  let res := dsoFindClosest map addr
  if res.2 then res.1.bind map.find else none

namespace Dso

/-- `pc - dso.start() + dso.offset()` of `compute_elf_bias` and `add_runtime_symbol_frame`. -/
def fileOffset (d : Dso) (pc : ℕ) : ℕ := (pc + addrSpace - d.start + d.offset) % addrSpace

theorem isWithin_iff {d : Dso} {a : ℕ} : d.isWithin a = true ↔ d.start ≤ a ∧ a ≤ d.endAddr := by
  simp [isWithin]

theorem isWithin_eq_false_iff {d : Dso} {a : ℕ} :
    d.isWithin a = false ↔ a < d.start ∨ d.endAddr < a := by
  rw [← Bool.not_eq_true, isWithin_iff]
  omega

end Dso

/-! ### Lookup -/

section Lookup

variable {map map' : DsoMap} {d m : Dso} {a : ℕ}

/-- The search stops at the last region that starts at or before the address. -/
theorem dsoFindClosest_cases (map : DsoMap) (a : ℕ) :
    (dsoFindClosest map a = (none, false) ∧ ∀ e ∈ map, a < e.1) ∨
    ∃ p v, (p, v) ∈ map ∧ p ≤ a ∧ (∀ e ∈ map, e.1 ≤ a → e.1 ≤ p) ∧
      dsoFindClosest map a = (some p, v.isWithin a) := by
  have hup : ∀ e ∈ map, ¬ Before e.1 (map.upperBound a) → a < e.1 := fun e he hnot =>
    (atOrAfter_upperBound he).mp (not_before_iff.mp hnot)
  unfold dsoFindClosest
  by_cases hbegin : map.upperBound a = map.begin
  · refine .inl ⟨if_pos hbegin, fun e he => hup e he ?_⟩
    rw [hbegin]
    exact not_before_begin he
  · simp only [if_neg hbegin]
    cases hprev : map.prev (map.upperBound a) with
    | none => exact .inl ⟨rfl, fun e he => hup e he (prev_eq_none hprev e he)⟩
    | some p =>
      obtain ⟨hp, ⟨v, hv⟩, hlast⟩ := prev_eq_some hprev
      refine .inr ⟨p, v, hv, ?_, fun e he hea => hlast e he ?_, ?_⟩
      · by_contra hap
        exact not_before_iff.mpr ((atOrAfter_upperBound hv).mpr (not_le.mp hap)) hp
      · by_contra hnot
        exact absurd (hup e he hnot) (not_lt.mpr hea)
      · simp only [find_eq_some.mpr hv, Option.any_some]

/-- In a map of disjoint regions the search finds the region that contains the address. -/
theorem dsoFound_eq_some (hw : Ordered map) :
    dsoFound map a = some m ↔ (m.start, m) ∈ map ∧ m.isWithin a = true := by
  unfold dsoFound
  rcases dsoFindClosest_cases map a with ⟨heq, hafter⟩ | ⟨p, v, hv, hpa, hlast, heq⟩
  · simp only [heq, Bool.false_eq_true, if_false, reduceCtorEq, false_iff, not_and,
      Dso.isWithin_iff]
    intro hm hstart
    exact absurd (hafter _ hm) (not_lt.mpr hstart)
  · have hp : p = v.start := hw.key _ hv
    simp only [heq, Option.bind_some, find_eq_some.mpr hv]
    constructor
    · intro h
      split_ifs at h with hin
      cases h
      exact ⟨hp ▸ hv, hin⟩
    · rintro ⟨hm, hin⟩
      rw [Dso.isWithin_iff] at hin
      -- a region that starts earlier would have to reach over the one that was found
      have hnlt : ¬ m.start < p := by
        intro hlt
        have hends : m.endAddr < v.start := hw.disjoint _ hm _ hv hlt
        omega
      have hkey : m.start = p := le_antisymm (hlast _ hm hin.1) (not_lt.mp hnlt)
      obtain rfl : m = v := congrArg Prod.snd (eq_of_mem_of_key hm hv hkey)
      rw [if_pos (Dso.isWithin_iff.mpr hin)]

/-! ### The map after an insertion -/

/-- What is left of the region `m` at an address outside `d`. -/
def leftOver (d : Dso) (a : ℕ) (m : Dso) : Option Dso :=
  if m.intersects d = false then some m
  else if isIntersectionAllowed m d = false then none
  else if a < d.start then some (m.adjustEnd (d.start - 1))
  else some (m.adjustStart (d.endAddr + 1))

/-- A remnant found at an address is what is left of the region found there before. -/
theorem Remnant.source (hw : Ordered map) (hd : d.Proper) {e : ℕ × Dso} (h : Remnant map d e)
    (hin : e.2.isWithin a = true) : (dsoFound map a).bind (leftOver d a) = some e.2 := by
  rw [Dso.isWithin_iff] at hin
  have hfound : ∀ x ∈ map, x.2.start ≤ a → a ≤ x.2.endAddr → dsoFound map a = some x.2 := by
    intro x hx hstart hend
    have hkx : x.1 = x.2.start := hw.key x hx
    exact (dsoFound_eq_some hw).mpr ⟨hkx ▸ hx, Dso.isWithin_iff.mpr ⟨hstart, hend⟩⟩
  cases h with
  | untouched he ho => rw [hfound _ he hin.1 hin.2, Option.bind_some, leftOver, if_pos ho]
  | @left x hx ho ha hlt =>
    have hi := (Dso.intersects_iff (hw.le _ hx) hd.le).mp ho
    simp only [Dso.adjustEnd] at hin
    rw [hfound x hx (by omega) (by omega), Option.bind_some, leftOver, if_neg (by simp [ho]),
      if_neg (by simp [ha]), if_pos (by omega)]
  | @right x hx ho ha hlt =>
    have hi := (Dso.intersects_iff (hw.le _ hx) hd.le).mp ho
    have hle := hd.le
    simp only [Dso.adjustStart] at hin
    rw [hfound x hx (by omega) (by omega), Option.bind_some, leftOver, if_neg (by simp [ho]),
      if_neg (by simp [ha]), if_neg (by omega)]

/-- What is left of the region found at an address outside `d` is a remnant there. -/
theorem Remnant.of_leftOver (hw : Ordered map) (hd : d.Proper) {r : Dso}
    (hm : dsoFound map a = some m) (hr : leftOver d a m = some r) (hout : d.isWithin a = false) :
    Remnant map d (r.start, r) ∧ r.isWithin a = true := by
  obtain ⟨hmem, hin⟩ := (dsoFound_eq_some hw).mp hm
  rw [Dso.isWithin_iff] at hin
  rw [Dso.isWithin_eq_false_iff] at hout
  have hle := hw.le _ hmem
  have hdle := hd.le
  unfold leftOver at hr
  split_ifs at hr with ho ha hlt
  · cases hr
    exact ⟨.untouched hmem ho, Dso.isWithin_iff.mpr hin⟩
  · rw [Bool.not_eq_false] at ho ha
    have hi := (Dso.intersects_iff hle hdle).mp ho
    cases hr
    refine ⟨.left hmem ho ha (by simp only at *; omega), Dso.isWithin_iff.mpr ?_⟩
    simp only [Dso.adjustEnd]
    omega
  · rw [Bool.not_eq_false] at ho ha
    have hi := (Dso.intersects_iff hle hdle).mp ho
    cases hr
    refine ⟨.right hmem ho ha (by simp only at *; omega), Dso.isWithin_iff.mpr ?_⟩
    simp only [Dso.adjustStart]
    omega

/-- The mapping found at each address once `d` and the remnants around it make the map. -/
theorem dsoFound_of_remnants (hw : Ordered map) (hd : d.Proper)
    (hmap' : ∀ e, e ∈ map' ↔ e = (d.start, d) ∨ Remnant map d e) (a : ℕ) :
    dsoFound map' a =
      if d.isWithin a = true then some d else (dsoFound map a).bind (leftOver d a) := by
  refine Option.ext fun m => ?_
  rw [dsoFound_eq_some (ordered_of_remnants hw hd hmap'), hmap']
  split_ifs with hin
  · constructor
    · rintro ⟨heq | hrem, hm⟩
      · rw [(Prod.mk.inj heq).2]
      · have haway := hrem.away hw hd
        rw [Dso.isWithin_iff] at hin hm
        simp only at haway
        omega
    · rintro ⟨⟩
      exact ⟨.inl rfl, hin⟩
  · rw [Bool.not_eq_true] at hin
    constructor
    · rintro ⟨heq | hrem, hm⟩
      · rw [(Prod.mk.inj heq).2, hin] at hm
        cases hm
      · exact hrem.source hw hd hm
    · intro hbind
      obtain ⟨m₀, hm₀, hleft⟩ := Option.bind_eq_some_iff.mp hbind
      obtain ⟨hrem, hm⟩ := Remnant.of_leftOver hw hd hm₀ hleft hin
      exact ⟨.inr hrem, hm⟩

end Lookup

/-! ### Insertion into the header -/

namespace DsoHdr

def mapOf (h : DsoHdr) (pid : ℤ) : DsoMap := (h.pidMap.get pid).map

@[simp] theorem mapOf_setPidMapping (h : DsoHdr) (pid : ℤ) (pidMapping : PidMapping) :
    (h.setPidMapping pid pidMapping).mapOf pid = pidMapping.map := by
  rw [mapOf, setPidMapping, UnorderedMap.get_insert]

theorem mapOf_setPidMapping_ne (h : DsoHdr) {pid pid' : ℤ} (pidMapping : PidMapping)
    (hpid : pid' ≠ pid) : (h.setPidMapping pid pidMapping).mapOf pid' = h.mapOf pid' := by
  rw [mapOf, setPidMapping, UnorderedMap.get_insert_ne _ _ hpid, mapOf]

theorem mapOf_setPidMapping_same (h : DsoHdr) {pid : ℤ} {pidMapping : PidMapping}
    (hmap : pidMapping.map = h.mapOf pid) (pid' : ℤ) :
    (h.setPidMapping pid pidMapping).mapOf pid' = h.mapOf pid' := by
  by_cases hpid : pid' = pid
  · rw [hpid, mapOf_setPidMapping, hmap]
  · exact mapOf_setPidMapping_ne h pidMapping hpid

variable {h : DsoHdr} {d : Dso}

theorem pairwise_of_checkEntries {pid : ℤ} {l : List (ℕ × Dso)} {previous : Option Dso}
    (hsorted : l.Pairwise fun a b => a.1 < b.1) (hcheck : checkEntries pid previous l = true) :
    (∀ e ∈ l, e.1 = e.2.start) ∧ (∀ p ∈ previous, ∀ e ∈ l, p.endAddr < e.2.start) ∧
      l.Pairwise fun a b => a.2.endAddr < b.2.start := by
  induction l generalizing previous with
  | nil =>
    exact ⟨fun e he => absurd he List.not_mem_nil, fun p _ e he => absurd he List.not_mem_nil,
      .nil⟩
  | cons e rest ih =>
    rw [checkEntries] at hcheck
    split_ifs at hcheck with hpid hstart hprev
    obtain ⟨hkey, hafter, hpair⟩ := ih hsorted.of_cons hcheck
    rw [not_not] at hstart
    have hkeys : ∀ x ∈ e :: rest, x.1 = x.2.start := by
      intro x hx
      rcases List.mem_cons.mp hx with rfl | hx
      · exact hstart
      · exact hkey x hx
    refine ⟨hkeys, fun p hp x hx => ?_, List.pairwise_cons.mpr ⟨hafter e.2 rfl, hpair⟩⟩
    have hhead : p.endAddr < e.2.start := by
      cases hp
      simpa using hprev
    rcases List.mem_cons.mp hx with rfl | hx'
    · exact hhead
    · have hlt := List.rel_of_pairwise_cons hsorted hx'
      have := hkeys x hx
      omega

theorem ordered_of_checkInvariants (hinv : h.checkInvariants = true) {pid : ℤ}
    (hne : ∀ e ∈ h.mapOf pid, e.2.start ≤ e.2.endAddr) : Ordered (h.mapOf pid) := by
  have hall : h.pidMap.All fun pid pidMapping =>
      checkEntries pid none pidMapping.map.entries = true := UnorderedMap.all_of_entries_all hinv
  have hcheck : checkEntries pid none (h.mapOf pid).entries = true := hall.get pid rfl
  obtain ⟨hkey, -, hpair⟩ := pairwise_of_checkEntries (h.mapOf pid).sorted hcheck
  exact ⟨hkey, hne, fun a ha b hb hlt => rel_of_pairwise hpair ha hb hlt⟩

theorem insertEraseOverlap_mapOf (hw : Ordered (h.mapOf d.pid)) (hd : d.Proper) :
    ∃ h' findRes, h.insertEraseOverlap d = .ok (h', findRes) ∧
      ((∃ m adjusted, (d.start, m) ∈ h.mapOf d.pid ∧ m.adjustSame d = some adjusted ∧
        h'.mapOf d.pid = (h.mapOf d.pid).insertOrAssign d.start adjusted) ∨
      (∀ m, (d.start, m) ∈ h.mapOf d.pid → m.isSameOrSmaller d = false) ∧
        ∀ e, e ∈ h'.mapOf d.pid ↔ e = (d.start, d) ∨ Remnant (h.mapOf d.pid) d e) := by
  obtain ⟨pidMapping, hok, hins⟩ := insertEraseOverlap_spec hw hd
  refine ⟨h.setPidMapping d.pid pidMapping, (some d.start, true), ?_, ?_⟩
  · rw [insertEraseOverlap, hok]
    rfl
  · rw [mapOf_setPidMapping]
    cases hins with
    | known hm ha => exact .inl ⟨_, _, hm, ha, rfl⟩
    | mapped hno hmap' => exact .inr ⟨hno, hmap'⟩

/-- Pointwise specification of an insertion. A region that the process knows already is
shrunk in place. Otherwise the addresses of `d` find `d`, and every other address finds
what is left of the mapping that it found before. -/
theorem insertEraseOverlap_pointwise (hinv : h.checkInvariants = true)
    (hne : ∀ e ∈ h.mapOf d.pid, e.2.start ≤ e.2.endAddr) (hd : d.Proper) :
    ∃ h' findRes, h.insertEraseOverlap d = .ok (h', findRes) ∧
      (∀ m₀, (h.mapOf d.pid).find d.start = some m₀ → m₀.isSameOrSmaller d = true →
        (∃ m₁, (h'.mapOf d.pid).find d.start = some m₁ ∧ m₁.start = d.start ∧
          m₁.endAddr = d.endAddr ∧ m₁ = { m₀ with endAddr := d.endAddr, origin := d.origin }) ∧
        ∀ k ≠ d.start, (h'.mapOf d.pid).find k = (h.mapOf d.pid).find k) ∧
      ((∀ m₀, (h.mapOf d.pid).find d.start = some m₀ → m₀.isSameOrSmaller d = false) →
        (∀ a, d.isWithin a = true → dsoFound (h'.mapOf d.pid) a = some d) ∧
        (∀ a m, d.isWithin a = false → dsoFound (h.mapOf d.pid) a = some m →
          m.intersects d = false → dsoFound (h'.mapOf d.pid) a = some m) ∧
        (∀ a m, d.isWithin a = false → dsoFound (h.mapOf d.pid) a = some m →
          m.intersects d = true → isIntersectionAllowed m d = true →
          ∃ m', dsoFound (h'.mapOf d.pid) a = some m' ∧ m'.filename = m.filename ∧
            m'.inode = m.inode ∧ m'.prot = m.prot ∧ m'.type = m.type) ∧
        (∀ a m, d.isWithin a = false → dsoFound (h.mapOf d.pid) a = some m →
          m.intersects d = true → isIntersectionAllowed m d = false →
          dsoFound (h'.mapOf d.pid) a = none) ∧
        ∀ a, d.isWithin a = false → dsoFound (h.mapOf d.pid) a = none →
          dsoFound (h'.mapOf d.pid) a = none) := by
  have hw := ordered_of_checkInvariants hinv hne
  obtain ⟨h', findRes, hok, hcases⟩ := insertEraseOverlap_mapOf hw hd
  refine ⟨h', findRes, hok, fun m₀ hm₀ hsame => ?_, fun hno => ?_⟩
  · rcases hcases with ⟨m, adjusted, hm, hadj, hmap⟩ | ⟨hno, -⟩
    · obtain rfl := val_unique (find_eq_some.mp hm₀) hm
      obtain ⟨hstart, -, rfl⟩ := Dso.adjustSame_eq_some hadj
      rw [hmap]
      refine ⟨⟨_, find_eq_some.mpr (mem_insertOrAssign.mpr (.inl rfl)), hstart, rfl, rfl⟩, ?_⟩
      intro k hk
      refine Option.ext fun m => ?_
      rw [find_eq_some, find_eq_some, mem_insertOrAssign]
      simp [hk]
    · rw [hno m₀ (find_eq_some.mp hm₀)] at hsame
      cases hsame
  · have hmap : ∀ e, e ∈ h'.mapOf d.pid ↔ e = (d.start, d) ∨ Remnant (h.mapOf d.pid) d e := by
      rcases hcases with ⟨m, adjusted, hm, hadj, -⟩ | ⟨-, hmap⟩
      · have := hno m (find_eq_some.mpr hm)
        rw [Dso.adjustSame, this] at hadj
        cases hadj
      · exact hmap
    have hfound := dsoFound_of_remnants hw hd hmap
    refine ⟨fun a hin => ?_, fun a m hout hm ho => ?_, fun a m hout hm hi ha => ?_,
      fun a m hout hm hi ha => ?_, fun a hout hm => ?_⟩
    · rw [hfound, if_pos hin]
    · rw [hfound, if_neg (by simp [hout]), hm, Option.bind_some, leftOver, if_pos ho]
    · rw [hfound, if_neg (by simp [hout]), hm, Option.bind_some, leftOver, if_neg (by simp [hi]),
        if_neg (by simp [ha])]
      split_ifs
      · exact ⟨_, rfl, rfl, rfl, rfl, rfl⟩
      · exact ⟨_, rfl, rfl, rfl, rfl, rfl⟩
    · rw [hfound, if_neg (by simp [hout]), hm, Option.bind_some, leftOver, if_neg (by simp [hi]),
        if_pos ha]
    · rw [hfound, if_neg (by simp [hout]), hm, Option.bind_none]

def fileMapping : Dso := .make 7 0x1000 0x8fff 0x200 "/lib/a.so".toList 3 5 .perfMmapEvent

def bss : Dso := .make 7 0x3000 0x3fff 0 [] 0 3 .perfMmapEvent

def fileHdr : DsoHdr :=
  ({} : DsoHdr).setPidMapping 7
    { map := OrderedMap.empty.insertOrAssign fileMapping.start fileMapping }

/-- An anonymous mapping splits the file mapping: it is found at its addresses, and the
file at the addresses around it. -/
theorem insertEraseOverlap_pointwise_bss :
    ∃ h' findRes, fileHdr.insertEraseOverlap bss = .ok (h', findRes) ∧
      dsoFound (h'.mapOf bss.pid) 0x3800 = some bss ∧
      (∃ m', dsoFound (h'.mapOf bss.pid) 0x4000 = some m' ∧
        m'.filename = fileMapping.filename) ∧
      dsoFound (h'.mapOf bss.pid) 0x9000 = none := by
  obtain ⟨h', findRes, hok, -, hrest⟩ := insertEraseOverlap_pointwise (h := fileHdr) (d := bss)
    (by decide +kernel) (by decide +kernel) (by decide +kernel)
  obtain ⟨hin, -, hallowed, -, hnone⟩ := hrest (by decide +kernel)
  obtain ⟨m', hm', hfile, -⟩ := hallowed 0x4000 fileMapping (by decide +kernel)
    (by decide +kernel) (by decide +kernel) (by decide +kernel)
  exact ⟨h', findRes, hok, hin 0x3800 (by decide +kernel), ⟨m', hm', hfile⟩,
    hnone 0x9000 (by decide +kernel) (by decide +kernel)⟩

/-- A region that is empty, as `check_invariants` allows it, and starts where the new one
does. -/
def emptyRegionHdr : DsoHdr :=
  ({} : DsoHdr).setPidMapping 7 { map := (OrderedMap.empty.insertOrAssign 0x2000
    (.make 7 0x2000 0x1fff 0 "/lib/a.so".toList 3 5 .perfMmapEvent)) }

/-- An insertion that can be evaluated: it succeeds, and the header that it returns
passes a test. -/
theorem exists_of_insert {p : DsoHdr → Bool}
    (hrun : ((h.insertEraseOverlap d).toOption.any fun res => p res.1) = true) :
    ∃ h' findRes, h.insertEraseOverlap d = .ok (h', findRes) ∧ p h' = true := by
  cases hok : h.insertEraseOverlap d with
  | error e =>
    rw [hok] at hrun
    cases hrun
  | ok res =>
    rw [hok] at hrun
    exact ⟨res.1, res.2, rfl, hrun⟩

/-- `get_intersection` passes over an empty region at the start of the new one, and the
insertion into the map then finds its key taken. -/
theorem insertEraseOverlap_emptyRegion :
    let d : Dso := .make 7 0x2000 0x2fff 0 "/lib/b.so".toList 4 5 .perfMmapEvent
    emptyRegionHdr.checkInvariants = true ∧ d.Proper ∧
      (∀ m₀, (emptyRegionHdr.mapOf d.pid).find d.start = some m₀ →
        m₀.isSameOrSmaller d = false) ∧
      ∃ h' findRes, emptyRegionHdr.insertEraseOverlap d = .ok (h', findRes) ∧
        d.isWithin 0x2000 = true ∧ dsoFound (h'.mapOf d.pid) 0x2000 ≠ some d := by
  intro d
  obtain ⟨h', findRes, hok, hnone⟩ := exists_of_insert (h := emptyRegionHdr) (d := d)
    (p := fun h' => decide (dsoFound (h'.mapOf d.pid) 0x2000 ≠ some d)) (by decide +kernel)
  exact ⟨by decide +kernel, by decide +kernel, by decide +kernel, h', findRes, hok,
    by decide +kernel, of_decide_eq_true hnone⟩

/-! ### File offsets -/

theorem fileOffset_adjustStart_ne {m : Dso} {a : ℕ} (hd : d.Proper) (hm : m.start ≤ d.endAddr)
    (ha : d.endAddr < a) : (m.adjustStart (d.endAddr + 1)).fileOffset a ≠ m.fileOffset a := by
  have hlt := hd.endAddr_lt
  simp only [Dso.fileOffset, Dso.adjustStart, addrSpace] at hlt ⊢
  omega

/-- Of the addresses outside `d` that are still mapped, the file offset changes exactly at
those above `d` whose mapping `d` has cut: the remnant starts later, and keeps its offset. -/
theorem fileOffset_insert_iff {h' : DsoHdr} {findRes : DsoFindRes} {a : ℕ} {m m' : Dso}
    (hinv : h.checkInvariants = true)
    (hne : ∀ e ∈ h.mapOf d.pid, e.2.start ≤ e.2.endAddr) (hd : d.Proper)
    (hok : h.insertEraseOverlap d = .ok (h', findRes)) (hout : d.isWithin a = false)
    (hm : dsoFound (h.mapOf d.pid) a = some m) (hm' : dsoFound (h'.mapOf d.pid) a = some m') :
    m'.fileOffset a = m.fileOffset a ↔ a < d.start ∨ m.intersects d = false := by
  have hw := ordered_of_checkInvariants hinv hne
  obtain ⟨h'', findRes', hok', hcases⟩ := insertEraseOverlap_mapOf hw hd
  rw [hok] at hok'
  cases hok'
  obtain ⟨hmem, hin⟩ := (dsoFound_eq_some hw).mp hm
  have hmle : m.start ≤ m.endAddr := hw.le _ hmem
  rcases hcases with ⟨m₀, adjusted, hm₀, hadj, hmap⟩ | ⟨-, hmap⟩
  · -- the mapping of `d` has been shrunk, and the address was in another one
    have hord := ordered_adjustSame hw hd hm₀ hadj
    rw [hmap, dsoFound_eq_some hord] at hm'
    obtain ⟨hmem', hin'⟩ := hm'
    obtain ⟨hstart, hle, rfl⟩ := Dso.adjustSame_eq_some hadj
    rw [Dso.isWithin_iff] at hin hin'
    rw [Dso.isWithin_eq_false_iff] at hout
    rcases mem_insertOrAssign.mp hmem' with heq | ⟨hmem', hne'⟩
    · obtain ⟨-, rfl⟩ := Prod.mk.inj heq
      simp only at hin'
      omega
    · have hsame : dsoFound (h.mapOf d.pid) a = some m' :=
        (dsoFound_eq_some hw).mpr ⟨hmem', Dso.isWithin_iff.mpr hin'⟩
      rw [hm] at hsame
      cases hsame
      refine iff_of_true rfl (.inr (Bool.eq_false_iff.mpr fun hi => ?_))
      have hi := (Dso.intersects_iff hmle hd.le).mp hi
      rcases Nat.lt_or_gt_of_ne hne' with hlt | hlt
      · have := hw.disjoint _ hmem _ hm₀ hlt
        simp only at this
        omega
      · have := hw.disjoint _ hm₀ _ hmem hlt
        simp only at this
        omega
  · rw [dsoFound_of_remnants hw hd hmap, if_neg (by simp [hout]), hm, Option.bind_some,
      leftOver] at hm'
    rw [Dso.isWithin_eq_false_iff] at hout
    split_ifs at hm' with ho ha hlt
    · cases hm'
      exact iff_of_true rfl (.inr ho)
    · cases hm'
      exact iff_of_true rfl (.inl hlt)
    · cases hm'
      rw [Bool.not_eq_false] at ho
      have hi := (Dso.intersects_iff hmle hd.le).mp ho
      refine iff_of_false (fileOffset_adjustStart_ne hd hi.1 (by omega)) ?_
      rintro (hlt' | ho')
      · exact hlt hlt'
      · rw [ho] at ho'
        cases ho'

/-- Below the anonymous mapping the file offset is what it was. -/
theorem fileOffset_insert_iff_below :
    ∃ h' findRes m', fileHdr.insertEraseOverlap bss = .ok (h', findRes) ∧
      dsoFound (h'.mapOf bss.pid) 0x2000 = some m' ∧
      m'.fileOffset 0x2000 = fileMapping.fileOffset 0x2000 := by
  obtain ⟨h', findRes, hok, hfound⟩ := exists_of_insert (h := fileHdr) (d := bss)
    (p := fun h' => (dsoFound (h'.mapOf bss.pid) 0x2000).isSome) (by decide +kernel)
  obtain ⟨m', hm'⟩ := Option.isSome_iff_exists.mp hfound
  refine ⟨h', findRes, m', hok, hm', ?_⟩
  exact (fileOffset_insert_iff (m := fileMapping) (by decide +kernel) (by decide +kernel)
    (by decide +kernel) hok (by decide +kernel) (by decide +kernel) hm').mpr
    (.inl (by decide +kernel))

/-- Right above it, the remnant starts at `0x4000` with the file offset of `0x1000`. -/
theorem fileOffset_lost_above :
    fileHdr.checkInvariants = true ∧ bss.Proper ∧ bss.isWithin 0x4000 = false ∧
      dsoFound (fileHdr.mapOf bss.pid) 0x4000 = some fileMapping ∧
      ∃ h' findRes, fileHdr.insertEraseOverlap bss = .ok (h', findRes) ∧
        dsoFound (h'.mapOf bss.pid) 0x4000 = some (fileMapping.adjustStart 0x4000) ∧
        (fileMapping.adjustStart 0x4000).fileOffset 0x4000 ≠ fileMapping.fileOffset 0x4000 := by
  obtain ⟨h', findRes, hok, hfound⟩ := exists_of_insert (h := fileHdr) (d := bss)
    (p := fun h' => decide (dsoFound (h'.mapOf bss.pid) 0x4000 =
      some (fileMapping.adjustStart 0x4000))) (by decide +kernel)
  exact ⟨by decide +kernel, by decide +kernel, by decide +kernel, by decide +kernel, h', findRes,
    hok, of_decide_eq_true hfound, by decide +kernel⟩

/-! ### Forks -/

theorem copyMappings_mem {childPid : ℤ} {parent : DsoMap} {x : ℕ × Dso} (hx : x ∈ parent) :
    (x.1, x.2.withPid childPid) ∈ copyMappings childPid parent := by
  have hloop : ∀ (l : List (ℕ × Dso)) (acc : DsoMap), (∀ y ∈ l, y ∈ parent) →
      x ∈ l ∨ (x.1, x.2.withPid childPid) ∈ acc →
      (x.1, x.2.withPid childPid) ∈
        l.foldl (fun map y => map.insertOrAssign y.1 (y.2.withPid childPid)) acc := by
    intro l
    induction l with
    | nil => exact fun acc _ h => h.resolve_left List.not_mem_nil
    | cons y rest ih =>
      intro acc hl h
      refine ih _ (fun z hz => hl z (List.mem_cons_of_mem y hz)) ?_
      by_cases hkey : x.1 = y.1
      · obtain rfl := eq_of_mem_of_key hx (hl y List.mem_cons_self) hkey
        exact .inr (mem_insertOrAssign.mpr (.inl rfl))
      · rcases h with h | h
        · exact .inl ((List.mem_cons.mp h).resolve_left fun heq => hkey (congrArg Prod.fst heq))
        · exact .inr (mem_insertOrAssign.mpr (.inr ⟨h, hkey⟩))
  exact hloop _ _ (fun _ h => h) (.inl hx)

theorem dsoFound_pidFork (hi : h.Inv) {childPid : ℤ} (parentPid : ℤ)
    (hnew : AList.lookup childPid h.pidMap = none) (a : ℕ) :
    dsoFound ((h.pidFork childPid parentPid).mapOf childPid) a =
      (dsoFound (h.mapOf parentPid) a).map fun d => d.withPid childPid := by
  have hw : Ordered ((h.pidFork childPid parentPid).mapOf childPid) :=
    ((pidFork_inv hi childPid parentPid).get childPid).ordered
  have hmap : (h.pidFork childPid parentPid).mapOf childPid =
      copyMappings childPid (h.mapOf parentPid) := by
    unfold pidFork
    cases hparent : AList.lookup parentPid h.pidMap with
    | none => simp [mapOf, UnorderedMap.get, hnew, hparent]; rfl
    | some parent => simp [mapOf, UnorderedMap.get, hnew, hparent, setPidMapping]
  rw [hmap] at hw ⊢
  ext m
  rw [dsoFound_eq_some hw, Option.map_eq_some_iff]
  constructor
  · rintro ⟨hm, hin⟩
    obtain ⟨⟨start, d⟩, hd, heq⟩ := mem_copyMappings hm
    obtain ⟨hstart, rfl⟩ := Prod.mk.inj heq
    exact ⟨d, (dsoFound_eq_some (hi.get parentPid).ordered).mpr ⟨hstart ▸ hd, hin⟩, rfl⟩
  · rintro ⟨d, hd, rfl⟩
    obtain ⟨hmem, hin⟩ := (dsoFound_eq_some (hi.get parentPid).ordered).mp hd
    exact ⟨copyMappings_mem hmem, hin⟩

/-- In every state that a run of proper insertions reaches, a process that is forked finds at every
address what its parent finds there. -/
theorem dsoFound_forked (ops : List DsoOp)
    (hops : Run.Along (fun h op => (step h op).toOption)
      (fun h op => ∀ d ∈ h.inserted op, d.Proper) {} ops)
    (hrun : Run.exec step {} ops = .ok h) {childPid : ℤ} (parentPid : ℤ)
    (hnew : AList.lookup childPid h.pidMap = none) (a : ℕ) :
    dsoFound ((h.pidFork childPid parentPid).mapOf childPid) a =
      (dsoFound (h.mapOf parentPid) a).map fun d => d.withPid childPid := by
  obtain ⟨h', hrun', hi⟩ :=
    Run.exec_invariant (fun h op hi hop => step_inv hi op hop) inv_empty hops
  cases hrun.symm.trans hrun'
  exact dsoFound_pidFork hi parentPid hnew a

theorem dsoFound_forked_file :
    ∃ h, Run.exec step {} [.insertEraseOverlap fileMapping] = .ok h ∧
      ∀ a, dsoFound ((h.pidFork 8 7).mapOf 8) a =
        (dsoFound (h.mapOf 7) a).map fun d => d.withPid 8 :=
  ⟨_, rfl, dsoFound_forked [.insertEraseOverlap fileMapping] (by decide +kernel) rfl 7
    (by decide +kernel)⟩

end DsoHdr

end Ddprof
