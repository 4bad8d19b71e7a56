import Ddprof.Lib.Run
import Ddprof.Dso.Regions

/-!
The invariants of `DsoHdr` along every sequence of operations.

`WellFormed` is kept by the insertion of a proper region. All other operations
copy, drop or re-tag whole maps. `check_invariants` is a test of a part of
`WellFormed`, so it succeeds in every state that is reached.
-/

namespace Ddprof

open OrderedMap

section Insert

variable {pid : ℤ} {map : DsoMap} {d : Dso}

namespace Remnant

theorem exists_source (hw : Ordered map) (hd : d.Proper) {e : ℕ × Dso}
    (h : Remnant map d e) :
    e.1 = e.2.start ∧ e.2.start ≤ e.2.endAddr ∧ ∃ x ∈ map, e.2.pid = x.2.pid ∧
      x.2.start ≤ e.2.start ∧ e.2.endAddr ≤ x.2.endAddr := by
  cases h with
  | untouched he ho => exact ⟨hw.key _ he, (hw.le _ he), e, he, rfl, le_rfl, le_rfl⟩
  | @left x hx ho ha hlt =>
    have hi := (Dso.intersects_iff (hw.le _ hx) hd.le).mp ho
    refine ⟨hw.key x hx, ?_, x, hx, rfl, ?_, ?_⟩ <;> simp only [Dso.adjustEnd] <;> omega
  | @right x hx ho ha hlt =>
    have hi := (Dso.intersects_iff (hw.le _ hx) hd.le).mp ho
    refine ⟨rfl, ?_, x, hx, rfl, ?_, ?_⟩ <;> simp only [Dso.adjustStart] <;> omega

theorem away (hw : Ordered map) (hd : d.Proper) {e : ℕ × Dso} (h : Remnant map d e) :
    e.2.endAddr < d.start ∨ d.endAddr < e.2.start := by
  cases h with
  | untouched he ho =>
    have := (Dso.intersects_iff (hw.le _ he) hd.le).not.mp (Bool.not_eq_true _ ▸ ho)
    omega
  | left hx ho ha hlt =>
    left
    simp only [Dso.adjustEnd]
    omega
  | right hx ho ha hlt =>
    right
    simp only [Dso.adjustStart]
    omega

theorem ne_of_untouched {a x : ℕ × Dso} (ha : a ∈ map) (hx : x ∈ map)
    (hao : a.2.intersects d = false) (hxo : x.2.intersects d = true) : a.1 ≠ x.1 := by
  intro heq
  rw [eq_of_mem_of_key ha hx heq, hxo] at hao
  cases hao

/-- Two remnants are disjoint. Remnants of different regions are because the
regions are; of one region there are at most two, one on each side of `d`. -/
theorem disjoint (hw : Ordered map) (hd : d.Proper) {a b : ℕ × Dso}
    (ha : Remnant map d a) (hb : Remnant map d b) (hlt : a.1 < b.1) :
    a.2.endAddr < b.2.start := by
  have hi := fun x (hx : x ∈ map) => Dso.intersects_iff (hw.le x hx) hd.le
  cases ha with
  | untouched ha hao =>
    have hka := hw.key a ha
    cases hb with
    | untouched hb hbo => exact hw.disjoint a ha b hb hlt
    | @left y hy hyo _ hyd => exact hw.disjoint a ha y hy hlt
    | @right y hy hyo _ hyd =>
      have hyi := (hi y hy).mp hyo
      simp only [Dso.adjustStart] at hlt ⊢
      rcases lt_or_gt_of_ne (ne_of_untouched ha hy hao hyo) with h | h
      · have := hw.disjoint a ha y hy h
        omega
      · have := hw.disjoint y hy a ha h
        omega
  | @left x hx hxo _ hxd =>
    have hxi := (hi x hx).mp hxo
    cases hb with
    | untouched hb hbo =>
      have := hw.disjoint x hx b hb hlt
      simp only [Dso.adjustEnd]
      omega
    | @left y hy hyo _ hyd =>
      have := hw.disjoint x hx y hy hlt
      simp only [Dso.adjustEnd]
      omega
    | right hy hyo _ hyd =>
      have := hd.le
      simp only [Dso.adjustEnd, Dso.adjustStart]
      omega
  | @right x hx hxo _ hxd =>
    have hxi := (hi x hx).mp hxo
    cases hb with
    | untouched hb hbo =>
      have hkb := hw.key b hb
      have hble := (hw.le b hb)
      simp only [Dso.adjustStart] at hlt ⊢
      rcases lt_or_gt_of_ne (ne_of_untouched hb hx hbo hxo) with h | h
      · have := hw.disjoint b hb x hx h
        omega
      · exact hw.disjoint x hx b hb h
    | @left y hy hyo _ hyd =>
      have hky := hw.key y hy
      have := hd.le
      simp only at hlt
      omega
    | right hy hyo _ hyd => exact absurd hlt (lt_irrefl _)

end Remnant

theorem ordered_of_remnants (hw : Ordered map) (hd : d.Proper) {map' : DsoMap}
    (hmap' : ∀ e, e ∈ map' ↔ e = (d.start, d) ∨ Remnant map d e) : Ordered map' := by
  refine ⟨fun e he => ?_, fun e he => ?_, fun x hx y hy hlt => ?_⟩
  · rcases (hmap' e).mp he with rfl | h
    · rfl
    · exact (h.exists_source hw hd).1
  · rcases (hmap' e).mp he with rfl | h
    · exact hd.le
    · exact (h.exists_source hw hd).2.1
  · have hdle := hd.le
    rcases (hmap' x).mp hx with rfl | hx
    · rcases (hmap' y).mp hy with rfl | hy
      · exact absurd hlt (lt_irrefl _)
      · obtain ⟨hky, hyle, -⟩ := hy.exists_source hw hd
        have := hy.away hw hd
        simp only at hlt ⊢
        omega
    · rcases (hmap' y).mp hy with rfl | hy
      · obtain ⟨hkx, -⟩ := hx.exists_source hw hd
        have := hx.away hw hd
        simp only at hlt ⊢
        omega
      · exact hx.disjoint hw hd hy hlt

theorem wellFormed_of_remnants (hw : WellFormed pid map) (hd : d.Proper) (hpid : d.pid = pid)
    {map' : DsoMap} (hmap' : ∀ e, e ∈ map' ↔ e = (d.start, d) ∨ Remnant map d e) :
    WellFormed pid map' := by
  have hord := ordered_of_remnants hw.ordered hd hmap'
  refine ⟨hord.key, fun e he => ?_, fun e he => ?_, hord.disjoint⟩
  · rcases (hmap' e).mp he with rfl | h
    · exact hpid
    · obtain ⟨_, _, x, hx, hp, _⟩ := h.exists_source hw.ordered hd
      rw [hp, hw.pid x hx]
  · rcases (hmap' e).mp he with rfl | h
    · exact hd
    · obtain ⟨_, hle, x, hx, _, _, hend⟩ := h.exists_source hw.ordered hd
      exact ⟨hle, lt_of_le_of_lt hend (hw.proper x hx).endAddr_lt⟩

theorem ordered_adjustSame (hw : Ordered map) (hd : d.Proper) {m adjusted : Dso}
    (hm : (d.start, m) ∈ map) (ha : m.adjustSame d = some adjusted) :
    Ordered (map.insertOrAssign d.start adjusted) := by
  obtain ⟨hstart, hle, rfl⟩ := Dso.adjustSame_eq_some ha
  refine ⟨fun e he => ?_, fun e he => ?_, fun a ha b hb hlt => ?_⟩
  · rcases mem_insertOrAssign.mp he with rfl | ⟨he, _⟩
    · exact hstart.symm
    · exact hw.key e he
  · rcases mem_insertOrAssign.mp he with rfl | ⟨he, _⟩
    · exact hstart ▸ hd.le
    · exact hw.le e he
  · rcases mem_insertOrAssign.mp ha with rfl | ⟨ha, hak⟩
    · rcases mem_insertOrAssign.mp hb with rfl | ⟨hb, _⟩
      · exact absurd hlt (lt_irrefl _)
      · exact lt_of_le_of_lt hle (hw.disjoint (d.start, m) hm b hb hlt)
    · rcases mem_insertOrAssign.mp hb with rfl | ⟨hb, _⟩
      · exact hw.disjoint a ha (d.start, m) hm hlt
      · exact hw.disjoint a ha b hb hlt

theorem wellFormed_adjustSame (hw : WellFormed pid map) (hd : d.Proper) {m adjusted : Dso}
    (hm : (d.start, m) ∈ map) (ha : m.adjustSame d = some adjusted) :
    WellFormed pid (map.insertOrAssign d.start adjusted) := by
  have hord := ordered_adjustSame hw.ordered hd hm ha
  obtain ⟨hstart, hle, rfl⟩ := Dso.adjustSame_eq_some ha
  refine ⟨hord.key, fun e he => ?_, fun e he => ?_, hord.disjoint⟩
  · rcases mem_insertOrAssign.mp he with rfl | ⟨he, _⟩
    · exact hw.pid (d.start, m) hm
    · exact hw.pid e he
  · rcases mem_insertOrAssign.mp he with rfl | ⟨he, _⟩
    · exact ⟨hstart ▸ hd.le, hd.endAddr_lt⟩
    · exact hw.proper e he

/-- Either the region is known and adjusted in place, or the map is left alone. -/
theorem dsoFindAdjustSame_cases (map : DsoMap) (d : Dso) :
    (∃ m adjusted, (d.start, m) ∈ map ∧ m.adjustSame d = some adjusted ∧
      dsoFindAdjustSame map d = (map.insertOrAssign d.start adjusted, some d.start, true)) ∨
    (∀ m, (d.start, m) ∈ map → m.isSameOrSmaller d = false) ∧
      ∃ it, dsoFindAdjustSame map d = (map, it, false) := by
  unfold dsoFindAdjustSame
  cases hm : map.find d.start with
  | none => exact .inr ⟨fun m hmem => absurd rfl (find_eq_none.mp hm _ hmem), none, rfl⟩
  | some m =>
    cases ha : m.adjustSame d with
    | none =>
      refine .inr ⟨fun m' hm' => ?_, some d.start, by simp [ha]⟩
      obtain rfl := val_unique hm' (find_eq_some.mp hm)
      rw [← Bool.not_eq_true]
      intro hsame
      rw [Dso.adjustSame, if_pos hsame] at ha
      cases ha
    | some adjusted =>
      exact .inl ⟨m, adjusted, find_eq_some.mp hm, ha, by simp [ha]⟩

/-- Making room for `d` leaves the remnants, also when nothing intersects it. -/
theorem makeRoom_spec (hw : Ordered map) (hd : d.Proper) :
    ∃ map', makeRoom map d = .ok map' ∧ ∀ e, e ∈ map' ↔ Remnant map d e := by
  unfold makeRoom
  by_cases hne : (getIntersection map d).1 = (getIntersection map d).2
  · refine ⟨map, if_neg (not_not.mpr hne), fun e => ?_⟩
    have hnone : ∀ x ∈ map, x.2.intersects d = false := by
      intro x hx
      rw [← Bool.not_eq_true, ← mem_getIntersection hw hd hx, hne, ← not_before_iff]
      exact fun h => h.1 h.2
    constructor
    · exact fun he => .untouched he (hnone e he)
    · rintro (⟨he, _⟩ | ⟨hx, hi, _, _⟩ | ⟨hx, hi, _, _⟩)
      · exact he
      · rw [hnone _ hx] at hi
        cases hi
      · rw [hnone _ hx] at hi
        cases hi
  · rw [if_pos hne]
    exact eraseRange_spec hw hd hne

inductive Inserted (pidMapping : PidMapping) (d : Dso) : PidMapping → Prop
  /-- The process knows the region already and shrinks it in place. -/
  | known {m adjusted : Dso} (hm : (d.start, m) ∈ pidMapping.map)
      (ha : m.adjustSame d = some adjusted) :
      Inserted pidMapping d
        { pidMapping with map := pidMapping.map.insertOrAssign d.start adjusted }
  /-- The region is mapped over what was there. -/
  | mapped {map' : DsoMap}
      (hno : ∀ m, (d.start, m) ∈ pidMapping.map → m.isSameOrSmaller d = false)
      (hmap' : ∀ e, e ∈ map' ↔ e = (d.start, d) ∨ Remnant pidMapping.map d e) :
      Inserted pidMapping d
        { pidMapping with
          map := map'
          jitdumpAddr := if d.type = .jitDump then d.start else pidMapping.jitdumpAddr }

/-- Insertion into the map of a process succeeds, and reports success on both paths. -/
theorem insertEraseOverlap_spec {pidMapping : PidMapping} (hw : Ordered pidMapping.map)
    (hd : d.Proper) :
    ∃ pidMapping', pidMapping.insertEraseOverlap d = .ok (pidMapping', some d.start, true) ∧
      Inserted pidMapping d pidMapping' := by
  unfold PidMapping.insertEraseOverlap
  rcases dsoFindAdjustSame_cases pidMapping.map d with ⟨m, adjusted, hm, ha, heq⟩ | ⟨hno, it, heq⟩
  · rw [heq]
    exact ⟨_, rfl, .known hm ha⟩
  · obtain ⟨erased, hok, hmem⟩ := makeRoom_spec hw hd
    have hfresh : ∀ e ∈ erased, e.1 ≠ d.start := by
      intro e he hk
      have haway := ((hmem e).mp he).away hw hd
      have hsrc := ((hmem e).mp he).exists_source hw hd
      have := hd.le
      omega
    have hins := insert_of_fresh d hfresh
    simp only [heq, Bool.false_eq_true, if_false, hok, bind, Except.bind, hins]
    refine ⟨_, rfl, .mapped hno fun e => ?_⟩
    rw [mem_insertOrAssign, ← hmem]
    exact or_congr_right ⟨And.left, fun he => ⟨he, hfresh e he⟩⟩

variable {pidMapping pidMapping' : PidMapping}

theorem Inserted.wellFormed
    (h : Inserted pidMapping d pidMapping') (hw : WellFormed pid pidMapping.map)
    (hd : d.Proper) (hpid : d.pid = pid) : WellFormed pid pidMapping'.map := by
  cases h with
  | known hm ha => exact wellFormed_adjustSame hw hd hm ha
  | mapped hno hmap' => exact wellFormed_of_remnants hw hd hpid hmap'

theorem Inserted.backpopulateState_eq (h : Inserted pidMapping d pidMapping') :
    pidMapping'.backpopulateState = pidMapping.backpopulateState := by
  cases h <;> rfl

inductive InsertedAll : PidMapping → List Dso → PidMapping → Prop
  | nil (pidMapping : PidMapping) : InsertedAll pidMapping [] pidMapping
  | cons {pidMapping pidMapping' pidMapping'' : PidMapping} {d : Dso} {ds : List Dso}
      (hd : Inserted pidMapping d pidMapping') (hds : InsertedAll pidMapping' ds pidMapping'') :
      InsertedAll pidMapping (d :: ds) pidMapping''

theorem InsertedAll.backpopulateState_eq {ds : List Dso}
    (h : InsertedAll pidMapping ds pidMapping') :
    pidMapping'.backpopulateState = pidMapping.backpopulateState := by
  induction h with
  | nil => rfl
  | cons hd _ ih => rw [ih, hd.backpopulateState_eq]

end Insert

/-- The state of a backpopulation after the permission check. -/
def BackpopulateState.attempt (state : BackpopulateState) (now : ℤ) : BackpopulateState :=
  { state with nbUnfoundDsos := state.nbUnfoundDsos + 1, lastBackpopulateTime := now }

namespace DsoHdr

def Inv (h : DsoHdr) : Prop := h.pidMap.All fun pid pidMapping => WellFormed pid pidMapping.map

theorem inv_empty : Inv {} := UnorderedMap.all_empty

variable {h : DsoHdr}

theorem Inv.get (hi : h.Inv) (pid : ℤ) : WellFormed pid (h.pidMap.get pid).map :=
  UnorderedMap.All.get hi pid (wellFormed_empty pid)

variable {pid : ℤ}

theorem Inv.setPidMapping (hi : h.Inv) {pidMapping : PidMapping}
    (hw : WellFormed pid pidMapping.map) : (h.setPidMapping pid pidMapping).Inv :=
  UnorderedMap.All.insert hi hw

theorem insertEraseOverlap_inv (hi : h.Inv) {d : Dso} (hd : d.Proper) :
    ∃ h' findRes, h.insertEraseOverlap d = .ok (h', findRes) ∧ h'.Inv := by
  obtain ⟨pidMapping, hok, hins⟩ := insertEraseOverlap_spec (hi.get d.pid).ordered hd
  refine ⟨h.setPidMapping d.pid pidMapping, (some d.start, true), ?_,
    hi.setPidMapping (hins.wellFormed (hi.get d.pid) hd rfl)⟩
  rw [insertEraseOverlap, hok]
  rfl

theorem maybeInsertEraseOverlap_inv (hi : h.Inv) {d : Dso} {timestamp : ℤ}
    (hd : ¬ timestamp < (h.pidMap.get d.pid).backpopulateState.lastBackpopulateTime →
      d.Proper) :
    ∃ h' res, h.maybeInsertEraseOverlap d timestamp = .ok (h', res) ∧ h'.Inv := by
  unfold maybeInsertEraseOverlap
  simp only
  split_ifs with hold
  · exact ⟨_, _, rfl, hi.setPidMapping (hi.get d.pid)⟩
  · obtain ⟨pidMapping, hok, hins⟩ := insertEraseOverlap_spec (hi.get d.pid).ordered (hd hold)
    exact ⟨_, true, by rw [hok]; rfl,
      hi.setPidMapping (hins.wellFormed (hi.get d.pid) (hd hold) rfl)⟩

variable {lines : List (List Char)}

theorem mem_procRegions {d : Dso} :
    d ∈ procRegions pid lines ↔
      (∃ line ∈ lines, dsoFromProcLine pid line = d) ∧ d.pid ≠ -1 := by
  simp [procRegions]

theorem pid_of_mem_procRegions {d : Dso} (hd : d ∈ procRegions pid lines) : d.pid = pid := by
  obtain ⟨⟨line, -, rfl⟩, hvalid⟩ := mem_procRegions.mp hd
  exact (dsoFromProcLine_pid pid line).resolve_right hvalid

theorem procRegions_cons_of_invalid {line : List Char} {rest : List (List Char)}
    (h : (dsoFromProcLine pid line).pid = -1) :
    procRegions pid (line :: rest) = procRegions pid rest := by
  simp [procRegions, h]

theorem procRegions_cons_of_valid {line : List Char} {rest : List (List Char)}
    (h : (dsoFromProcLine pid line).pid ≠ -1) :
    procRegions pid (line :: rest) = dsoFromProcLine pid line :: procRegions pid rest := by
  simp [procRegions, h]

/-- The `getline` loop inserts one region after the other, and counts every one of them. -/
theorem backpopulateLines_spec (pidMapping : PidMapping)
    (hlines : ∀ d ∈ procRegions pid lines, d.Proper)
    (hw : WellFormed pid pidMapping.map) (nbEltsAdded : ℤ) :
    ∃ pidMapping', backpopulateLines pid pidMapping nbEltsAdded lines =
        .ok (pidMapping', nbEltsAdded + (procRegions pid lines).length) ∧
      InsertedAll pidMapping (procRegions pid lines) pidMapping' ∧
      WellFormed pid pidMapping'.map := by
  induction lines generalizing pidMapping nbEltsAdded with
  | nil => exact ⟨pidMapping, by simp [backpopulateLines, procRegions], .nil _, hw⟩
  | cons line rest ih =>
    unfold backpopulateLines
    simp only
    split_ifs with hvalid
    · rw [procRegions_cons_of_invalid hvalid] at hlines ⊢
      exact ih pidMapping hlines hw nbEltsAdded
    · rw [procRegions_cons_of_valid hvalid] at hlines ⊢
      have hproper := hlines _ List.mem_cons_self
      obtain ⟨next, hok, hins⟩ := insertEraseOverlap_spec hw.ordered hproper
      obtain ⟨pidMapping', hrest, hall, hw'⟩ := ih next
        (fun d hd => hlines d (List.mem_cons_of_mem _ hd))
        (hins.wellFormed hw hproper ((dsoFromProcLine_pid pid line).resolve_right hvalid))
        (nbEltsAdded + 1)
      refine ⟨pidMapping', ?_, .cons hins hall, hw'⟩
      rw [hok]
      refine hrest.trans ?_
      rw [List.length_cons, Nat.cast_succ, add_assoc, add_comm 1]

theorem pidBackpopulate_forbidden
    (hperm : (h.pidMap.get pid).backpopulateState.perm ≠ .allowed) (now : ℤ)
    (procMaps : Option (List (List Char))) (nbEltsAdded : ℤ) :
    h.pidBackpopulate pid now procMaps nbEltsAdded =
      .ok (h.setPidMapping pid { h.pidMap.get pid with
        backpopulateState := { (h.pidMap.get pid).backpopulateState with
          nbUnfoundDsos := (h.pidMap.get pid).backpopulateState.nbUnfoundDsos + 1 } },
        false, nbEltsAdded) :=
  if_pos hperm

theorem pidBackpopulate_unopened
    (hperm : (h.pidMap.get pid).backpopulateState.perm = .allowed) (now nbEltsAdded : ℤ) :
    h.pidBackpopulate pid now none nbEltsAdded =
      .ok (h.setPidMapping pid { h.pidMap.get pid with
        backpopulateState := (h.pidMap.get pid).backpopulateState.attempt now }, false, 0) :=
  if_neg (not_not.mpr hperm)

theorem pidBackpopulate_opened
    (hperm : (h.pidMap.get pid).backpopulateState.perm = .allowed) (now : ℤ)
    (lines : List (List Char)) (nbEltsAdded : ℤ) :
    h.pidBackpopulate pid now (some lines) nbEltsAdded =
      (backpopulateLines pid { h.pidMap.get pid with
        backpopulateState := (h.pidMap.get pid).backpopulateState.attempt now } 0 lines).map
        fun res => (h.setPidMapping pid { res.1 with
          backpopulateState := if res.2 = 0
            then { res.1.backpopulateState with perm := .forbidden }
            else res.1.backpopulateState }, true, res.2) := by
  refine (if_neg (not_not.mpr hperm)).trans ?_
  simp only [BackpopulateState.attempt]
  cases backpopulateLines pid _ 0 lines <;> rfl

/-- A backpopulation that is allowed and opens the file inserts the regions of its valid
lines. It is forbidden to try again when there was none. -/
theorem pidBackpopulate_spec (hi : h.Inv)
    (hperm : (h.pidMap.get pid).backpopulateState.perm = .allowed)
    (hlines : ∀ d ∈ procRegions pid lines, d.Proper) (now nbEltsAdded : ℤ) :
    ∃ pidMapping',
      InsertedAll
        { h.pidMap.get pid with
          backpopulateState := (h.pidMap.get pid).backpopulateState.attempt now }
        (procRegions pid lines) pidMapping' ∧
      WellFormed pid pidMapping'.map ∧
      h.pidBackpopulate pid now (some lines) nbEltsAdded =
        .ok (h.setPidMapping pid
          { pidMapping' with
            backpopulateState := { (h.pidMap.get pid).backpopulateState.attempt now with
              perm := if procRegions pid lines = [] then .forbidden else .allowed } },
          true, (procRegions pid lines).length) := by
  obtain ⟨pidMapping', hok, hall, hw⟩ := backpopulateLines_spec
    { h.pidMap.get pid with
      backpopulateState := (h.pidMap.get pid).backpopulateState.attempt now }
    hlines (hi.get pid) 0
  refine ⟨pidMapping', hall, hw, ?_⟩
  have hstate := hall.backpopulateState_eq
  rw [zero_add] at hok
  rw [pidBackpopulate_opened hperm, hok, Except.map, hstate]
  by_cases hnil : procRegions pid lines = []
  · simp [hnil]
  · simp [hnil, BackpopulateState.attempt, hperm]

theorem pidBackpopulate_inv (hi : h.Inv) {pid now nbEltsAdded : ℤ}
    {procMaps : Option (List (List Char))}
    (hlines : (h.pidMap.get pid).backpopulateState.perm = .allowed → ∀ lines ∈ procMaps,
      ∀ d ∈ procRegions pid lines, d.Proper) :
    ∃ h' res, h.pidBackpopulate pid now procMaps nbEltsAdded = .ok (h', res) ∧ h'.Inv := by
  by_cases hperm : (h.pidMap.get pid).backpopulateState.perm = .allowed
  · cases procMaps with
    | none =>
      exact ⟨_, _, pidBackpopulate_unopened hperm now nbEltsAdded, hi.setPidMapping (hi.get pid)⟩
    | some lines =>
      obtain ⟨pidMapping', -, hw, hok⟩ :=
        pidBackpopulate_spec hi hperm (hlines hperm lines rfl) now nbEltsAdded
      exact ⟨_, _, hok, hi.setPidMapping hw⟩
  · exact ⟨_, _, pidBackpopulate_forbidden hperm now procMaps nbEltsAdded,
      hi.setPidMapping (hi.get pid)⟩

theorem mem_copyMappings {childPid : ℤ} {parent : DsoMap} {e : ℕ × Dso}
    (he : e ∈ copyMappings childPid parent) :
    ∃ x ∈ parent, e = (x.1, x.2.withPid childPid) := by
  have hloop : ∀ (l : List (ℕ × Dso)) (acc : DsoMap),
      e ∈ l.foldl (fun map x => map.insertOrAssign x.1 (x.2.withPid childPid)) acc →
      e ∈ acc ∨ ∃ x ∈ l, e = (x.1, x.2.withPid childPid) := by
    intro l
    induction l with
    | nil => exact fun acc h => .inl h
    | cons y rest ih =>
      intro acc h
      rcases ih _ h with h | ⟨x, hx, rfl⟩
      · rcases mem_insertOrAssign.mp h with rfl | h
        · exact .inr ⟨y, List.mem_cons_self, rfl⟩
        · exact .inl h.1
      · exact .inr ⟨x, List.mem_cons_of_mem y hx, rfl⟩
  exact (hloop _ _ he).resolve_left (not_mem_empty e)

theorem pidFork_inv (hi : h.Inv) (childPid parentPid : ℤ) : (h.pidFork childPid parentPid).Inv := by
  unfold pidFork
  cases hp : AList.lookup parentPid h.pidMap with
  | none => exact hi
  | some parent =>
    cases hc : AList.lookup childPid h.pidMap with
    | some _ => simpa [hc] using hi
    | none =>
      have hw : WellFormed parentPid parent.map := hi parentPid parent hp
      refine hi.setPidMapping ⟨?_, ?_, ?_, ?_⟩
      · intro e he
        obtain ⟨x, hx, rfl⟩ := mem_copyMappings he
        exact hw.key x hx
      · intro e he
        obtain ⟨x, _, rfl⟩ := mem_copyMappings he
        rfl
      · intro e he
        obtain ⟨x, hx, rfl⟩ := mem_copyMappings he
        exact ⟨(hw.proper x hx).le, (hw.proper x hx).endAddr_lt⟩
      · intro a ha b hb hlt
        obtain ⟨x, hx, rfl⟩ := mem_copyMappings ha
        obtain ⟨y, hy, rfl⟩ := mem_copyMappings hb
        exact hw.disjoint x hx y hy hlt

theorem clearUnvisited_inv (hi : h.Inv) (visitedPids : List ℤ) :
    (h.clearUnvisited visitedPids).1.Inv :=
  UnorderedMap.All.eraseAll hi _

theorem resetBackpopulateState_inv (hi : h.Inv) (resetThreshold : ℤ) :
    (h.resetBackpopulateState resetThreshold).Inv := by
  refine UnorderedMap.All.mapValues hi fun pid pidMapping hw => ?_
  split_ifs
  · exact hw
  · exact hw

/-- Every call that inserts only proper regions succeeds and keeps all maps well formed. -/
theorem step_inv (hi : h.Inv) (op : DsoOp) (hop : ∀ d ∈ h.inserted op, d.Proper) :
    ∃ h', h.step op = .ok h' ∧ h'.Inv := by
  cases op with
  | insertEraseOverlap d =>
    obtain ⟨h', findRes, hok, hi'⟩ := insertEraseOverlap_inv hi (hop d (by simp [inserted]))
    exact ⟨h', by rw [step, hok]; rfl, hi'⟩
  | maybeInsertEraseOverlap d timestamp =>
    obtain ⟨h', res, hok, hi'⟩ := maybeInsertEraseOverlap_inv hi
      (fun hold => hop d (by simpa [inserted] using hold))
    exact ⟨h', by rw [step, hok]; rfl, hi'⟩
  | pidBackpopulate pid now procMaps nbEltsAdded =>
    have hlines : (h.pidMap.get pid).backpopulateState.perm = .allowed →
        ∀ lines ∈ procMaps, ∀ d ∈ procRegions pid lines, d.Proper := by
      rintro hperm lines hsome d hd
      rw [Option.mem_def] at hsome
      subst hsome
      refine hop d ?_
      rw [inserted, if_pos hperm]
      exact hd
    obtain ⟨h', res, hok, hi'⟩ := pidBackpopulate_inv hi hlines
    exact ⟨h', by rw [step, hok]; rfl, hi'⟩
  | pidFork childPid parentPid => exact ⟨_, rfl, pidFork_inv hi childPid parentPid⟩
  | pidFree pid => exact ⟨_, rfl, UnorderedMap.All.erase hi pid⟩
  | clearUnvisited visitedPids => exact ⟨_, rfl, clearUnvisited_inv hi visitedPids⟩
  | resetBackpopulateState resetThreshold =>
    exact ⟨_, rfl, resetBackpopulateState_inv hi resetThreshold⟩

/-- The loop of `check_invariants` accepts entries that are tagged, keyed and
strictly disjoint, all after the entry that came before. -/
theorem checkEntries_of_pairwise {l : List (ℕ × Dso)} {previous : Option Dso}
    (hpid : ∀ e ∈ l, e.2.pid = pid) (hkey : ∀ e ∈ l, e.1 = e.2.start)
    (hdis : l.Pairwise fun a b => a.2.endAddr < b.2.start)
    (hprev : ∀ p ∈ previous, ∀ e ∈ l, p.endAddr < e.2.start) :
    checkEntries pid previous l = true := by
  induction l generalizing previous with
  | nil => rfl
  | cons e rest ih =>
    have hnot : (previous.any fun p => decide (e.2.start ≤ p.endAddr)) = false := by
      cases previous with
      | none => rfl
      | some p => simpa using hprev p rfl e List.mem_cons_self
    rw [checkEntries, if_neg (not_not.mpr (hpid e List.mem_cons_self)),
      if_neg (not_not.mpr (hkey e List.mem_cons_self)), hnot]
    refine ih (fun x hx => hpid x (List.mem_cons_of_mem e hx))
      (fun x hx => hkey x (List.mem_cons_of_mem e hx)) hdis.of_cons ?_
    rintro p hp x hx
    cases hp
    exact List.rel_of_pairwise_cons hdis hx

theorem Inv.checkInvariants (hi : h.Inv) : h.checkInvariants = true := by
  refine UnorderedMap.All.entries_all (m := h.pidMap)
    (p := fun pid pidMapping => checkEntries pid none pidMapping.map.entries) ?_
  intro pid pidMapping hlook
  have hw := hi pid pidMapping hlook
  exact checkEntries_of_pairwise hw.pid hw.key (pairwise_of_lt hw.disjoint)
    (fun p hp => absurd hp (by simp))

/-- Along every sequence of calls that inserts only proper regions, no call fails,
so the fatal check of `erase_range` is not reached, and `check_invariants` holds
at the end. -/
theorem checkInvariants_of_run (ops : List DsoOp)
    (hops : Run.Along (fun h op => (step h op).toOption)
      (fun h op => ∀ d ∈ h.inserted op, d.Proper) {} ops) :
    ∃ h, Run.exec step {} ops = .ok h ∧ h.checkInvariants = true := by
  obtain ⟨h, hok, hi⟩ := Run.exec_invariant (fun h op hi hop => step_inv hi op hop) inv_empty hops
  exact ⟨h, hok, hi.checkInvariants⟩

/-- A run that splits a file mapping, re-keys one, shrinks one in place, forks and
reads `/proc/7/maps`. -/
theorem checkInvariants_of_run_split :
    ∃ h, Run.exec step {}
      [.insertEraseOverlap (.make 7 0x1000 0x8fff 0 "/lib/a.so".toList 3 5 .perfMmapEvent),
        .maybeInsertEraseOverlap (.make 7 0x3000 0x3fff 0 [] 0 3 .perfMmapEvent) 1,
        .maybeInsertEraseOverlap (.make 7 0x3800 0x4fff 0 [] 0 3 .perfMmapEvent) 2,
        .pidFork 8 7,
        .pidBackpopulate 7 5 (some ["5000-7000 r-xp 00000000 fe:01 3 /lib/a.so\n".toList]) 0,
        .resetBackpopulateState 10, .clearUnvisited [7], .pidFree 8] = .ok h ∧
      h.checkInvariants = true :=
  checkInvariants_of_run _ (by decide +kernel)

end DsoHdr

end Ddprof
