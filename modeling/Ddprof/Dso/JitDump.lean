import Mathlib.Data.List.TakeWhile
import Ddprof.Dso.Lookup

/-!
The jitdump marker of a process.

`_jitdump_addr` is the start of a region that maps a jitdump file. It is set when such a region
is inserted, and nothing else touches it. So it agrees with the map as long as no other region
is mapped over a jitdump region, and no process that has one is forked.
-/

namespace Ddprof

open OrderedMap

/-! ### Names of jitdump files -/

def lastComponent (path : List Char) : List Char := (afterLastSlash path).getD path

theorem lastComponent_eq (path : List Char) :
    lastComponent path = (path.reverse.takeWhile (· ≠ '/')).reverse := by
  unfold lastComponent afterLastSlash
  split_ifs with h
  · rfl
  · have hall : ∀ c ∈ path.reverse, decide (c ≠ '/') = true := fun c hc =>
      decide_eq_true fun hslash => h (hslash ▸ List.mem_reverse.mp hc)
    rw [List.takeWhile_eq_self_iff.mpr hall, List.reverse_reverse, Option.getD_none]

theorem lastComponent_append (stem : List Char) {ext : List Char} (h : '/' ∉ ext) :
    lastComponent (stem ++ ext) = lastComponent stem ++ ext := by
  have hext : ∀ c ∈ ext.reverse, decide (c ≠ '/') = true := fun c hc =>
    decide_eq_true fun hslash => h (hslash ▸ List.mem_reverse.mp hc)
  simp only [lastComponent_eq]
  rw [List.reverse_append, List.takeWhile_append_of_pos hext, List.reverse_append,
    List.reverse_reverse]

theorem lastComponent_suffix (path : List Char) : lastComponent path <:+ path := by
  rw [lastComponent_eq, ← List.reverse_prefix, List.reverse_reverse]
  exact List.takeWhile_prefix _

/-- The pattern `jit-[0-9]+\.dump` of the source's comment. -/
def IsJitDumpName (name : List Char) : Prop :=
  ∃ digits, digits ≠ [] ∧ digits.all Char.isDigit = true ∧
    name = "jit-".toList ++ digits ++ ".dump".toList

theorem not_isJitDumpName : ¬ IsJitDumpName "jit-.dump".toList := by
  rintro ⟨digits, hne, -, h⟩
  exact hne (by simpa using congrArg List.length h)

/-- The check accepts the pattern `jit-[0-9]*\.dump`. -/
theorem isJitDumpStr_iff (path : List Char) :
    isJitDumpStr path = true ↔ ∃ digits, digits.all Char.isDigit = true ∧
      lastComponent path = "jit-".toList ++ digits ++ ".dump".toList := by
  have hext : '/' ∉ ".dump".toList := by decide
  unfold isJitDumpStr
  by_cases hs : ".dump".toList <:+ path
  · obtain ⟨stem, rfl⟩ := hs
    have htake : (stem ++ ".dump".toList).take
        ((stem ++ ".dump".toList).length - ".dump".length) = stem := by
      rw [List.length_append, ← String.length_toList, Nat.add_sub_cancel, List.take_left]
    simp only [htake, lastComponent_append stem hext, List.append_cancel_right_eq]
    rw [if_neg (by simp)]
    change (if ¬ "jit-".toList.isPrefixOf (lastComponent stem) then false else
      ((lastComponent stem).drop "jit-".length).all Char.isDigit) = true ↔ _
    by_cases hp : "jit-".toList <+: lastComponent stem
    · obtain ⟨digits, hdigits⟩ := hp
      rw [← hdigits, if_neg (by simp), ← String.length_toList, List.drop_left]
      simp
    · rw [if_pos (by simpa using hp)]
      simp only [Bool.false_eq_true, false_iff]
      rintro ⟨digits, -, h⟩
      exact hp ⟨digits, h.symm⟩
  · rw [if_pos (by simpa using hs)]
    simp only [Bool.false_eq_true, false_iff]
    rintro ⟨digits, -, h⟩
    exact hs ((h ▸ List.suffix_append _ _ : ".dump".toList <:+ lastComponent path).trans
      (lastComponent_suffix path))

/-- The check and the comment differ on one file name, which has no digits. -/
theorem isJitDumpStr_pattern_iff (path : List Char) :
    (isJitDumpStr path = true ↔ IsJitDumpName (lastComponent path)) ↔
      lastComponent path ≠ "jit-.dump".toList := by
  rw [isJitDumpStr_iff]
  constructor
  · rintro h hname
    exact not_isJitDumpName (hname ▸ h.mp ⟨[], rfl, hname⟩)
  · intro hname
    refine ⟨fun ⟨digits, hall, h⟩ => ⟨digits, ?_, hall, h⟩, fun ⟨digits, _, hall, h⟩ =>
      ⟨digits, hall, h⟩⟩
    rintro rfl
    exact hname h

theorem isJitDumpStr_no_digits :
    isJitDumpStr "/tmp/jit-.dump".toList = true ∧
      ¬ IsJitDumpName (lastComponent "/tmp/jit-.dump".toList) :=
  ⟨by decide, not_isJitDumpName⟩

/-! ### The marker -/

/-- The marker is set if and only if a jitdump region is mapped, and leads to one. -/
structure JitConsistent (pidMapping : PidMapping) : Prop where
  marked_iff : pidMapping.jitdumpAddr ≠ 0 ↔ ∃ e ∈ pidMapping.map, e.2.type = .jitDump
  found : pidMapping.jitdumpAddr ≠ 0 →
    ∃ d, dsoFound pidMapping.map pidMapping.jitdumpAddr = some d ∧ d.type = .jitDump

/-- The marker is the start of a jitdump region, and is set if there is one. -/
structure JitMarked (pidMapping : PidMapping) : Prop where
  mem : pidMapping.jitdumpAddr ≠ 0 →
    ∃ d, (pidMapping.jitdumpAddr, d) ∈ pidMapping.map ∧ d.type = .jitDump
  ne_zero : ∀ e ∈ pidMapping.map, e.2.type = .jitDump → pidMapping.jitdumpAddr ≠ 0

theorem jitMarked_default : JitMarked default :=
  ⟨fun h => absurd rfl h, fun e he => absurd he (not_mem_empty e)⟩

variable {pid : ℤ} {pidMapping pidMapping' : PidMapping} {d : Dso}

theorem JitMarked.consistent (h : JitMarked pidMapping) (hw : Ordered pidMapping.map) :
    JitConsistent pidMapping := by
  refine ⟨⟨fun hne => ?_, fun ⟨e, he, ht⟩ => h.ne_zero e he ht⟩, fun hne => ?_⟩
  · obtain ⟨d, hd, ht⟩ := h.mem hne
    exact ⟨_, hd, ht⟩
  · obtain ⟨d, hd, ht⟩ := h.mem hne
    have hkey : pidMapping.jitdumpAddr = d.start := hw.key _ hd
    refine ⟨d, (dsoFound_eq_some hw).mpr ⟨hkey ▸ hd, ?_⟩, ht⟩
    rw [Dso.isWithin_iff, hkey]
    exact ⟨le_rfl, hw.le _ hd⟩

theorem Remnant.within {map : DsoMap} (hw : Ordered map) (hd : d.Proper) {e : ℕ × Dso}
    (h : Remnant map d e) :
    ∃ x ∈ map, e.2.type = x.2.type ∧ x.2.start ≤ e.2.start ∧ e.2.endAddr ≤ x.2.endAddr := by
  cases h with
  | untouched he ho => exact ⟨e, he, rfl, le_rfl, le_rfl⟩
  | @left x hx ho ha hlt =>
    have hi := (Dso.intersects_iff (hw.le _ hx) hd.le).mp ho
    refine ⟨x, hx, rfl, ?_, ?_⟩ <;> simp only [Dso.adjustEnd] <;> omega
  | @right x hx ho ha hlt =>
    have hi := (Dso.intersects_iff (hw.le _ hx) hd.le).mp ho
    refine ⟨x, hx, rfl, ?_, ?_⟩ <;> simp only [Dso.adjustStart] <;> omega

theorem Inserted.within (h : Inserted pidMapping d pidMapping') (hw : Ordered pidMapping.map)
    (hd : d.Proper) {e : ℕ × Dso} (he : e ∈ pidMapping'.map) :
    e.2 = d ∨ ∃ x ∈ pidMapping.map, e.2.type = x.2.type ∧ x.2.start ≤ e.2.start ∧
      e.2.endAddr ≤ x.2.endAddr := by
  cases h with
  | known hm ha =>
    obtain ⟨-, hle, rfl⟩ := Dso.adjustSame_eq_some ha
    rcases mem_insertOrAssign.mp he with rfl | ⟨he, -⟩
    · exact .inr ⟨_, hm, rfl, le_rfl, hle⟩
    · exact .inr ⟨e, he, rfl, le_rfl, le_rfl⟩
  | mapped hno hmap' =>
    rcases (hmap' e).mp he with rfl | hrem
    · exact .inl rfl
    · exact .inr (hrem.within hw hd)

/-- A region that is not a jitdump leaves the jitdump regions of the map alone. -/
def SparesJit (map : DsoMap) (d : Dso) : Prop :=
  d.type ≠ .jitDump → ∀ e ∈ map, e.2.type = .jitDump → e.2.intersects d = false

instance (map : DsoMap) (d : Dso) : Decidable (SparesJit map d) :=
  inferInstanceAs (Decidable (_ → ∀ e ∈ map.entries, _))

theorem JitMarked.inserted (hj : JitMarked pidMapping) (hw : Ordered pidMapping.map)
    (hd : d.Proper) (hzero : d.type = .jitDump → d.start ≠ 0)
    (hspares : SparesJit pidMapping.map d) (h : Inserted pidMapping d pidMapping') :
    JitMarked pidMapping' := by
  cases h with
  | @known m adjusted hm ha =>
    obtain ⟨-, -, rfl⟩ := Dso.adjustSame_eq_some ha
    refine ⟨fun hne => ?_, fun e he ht => ?_⟩
    · obtain ⟨x, hx, ht⟩ := hj.mem hne
      simp only [mem_insertOrAssign]
      by_cases hkey : pidMapping.jitdumpAddr = d.start
      · -- the marker leads to the region that is shrunk
        rw [hkey] at hx
        obtain rfl := val_unique hx hm
        exact ⟨_, .inl (Prod.ext hkey rfl), ht⟩
      · exact ⟨x, .inr ⟨hx, hkey⟩, ht⟩
    · rcases mem_insertOrAssign.mp he with rfl | ⟨he, -⟩
      · exact hj.ne_zero _ hm ht
      · exact hj.ne_zero e he ht
  | @mapped map' hno hmap' =>
    by_cases hjit : d.type = .jitDump
    · refine ⟨fun _ => ⟨d, ?_, hjit⟩, fun _ _ _ => ?_⟩
      · rw [if_pos hjit]
        exact (hmap' _).mpr (.inl rfl)
      · simp only [if_pos hjit]
        exact hzero hjit
    · simp only [if_neg hjit]
      refine ⟨fun hne => ?_, fun e he ht => ?_⟩
      · obtain ⟨x, hx, ht⟩ := hj.mem hne
        exact ⟨x, (hmap' _).mpr (.inr (.untouched hx (hspares hjit _ hx ht))), ht⟩
      · rcases (hmap' e).mp he with rfl | hrem
        · exact absurd ht hjit
        · obtain ⟨x, hx, hty, -⟩ := hrem.within hw hd
          exact hj.ne_zero x hx (hty ▸ ht)

/-- The regions that a call inserts are not empty, a jitdump region does not start at address
0, and the other regions leave the jitdump regions alone: those of the process and those of the
same call. -/
structure JitSafeRegions (map : DsoMap) (ds : List Dso) : Prop where
  proper : ∀ d ∈ ds, d.Proper
  start_ne_zero : ∀ d ∈ ds, d.type = .jitDump → d.start ≠ 0
  spares : ∀ d ∈ ds, SparesJit map d
  spares_each_other : ∀ d ∈ ds, d.type ≠ .jitDump → ∀ d' ∈ ds, d'.type = .jitDump →
    d'.intersects d = false

instance (map : DsoMap) (ds : List Dso) : Decidable (JitSafeRegions map ds) :=
  decidable_of_iff
    ((∀ d ∈ ds, d.Proper) ∧ (∀ d ∈ ds, d.type = .jitDump → d.start ≠ 0) ∧
      (∀ d ∈ ds, SparesJit map d) ∧
      ∀ d ∈ ds, d.type ≠ .jitDump → ∀ d' ∈ ds, d'.type = .jitDump → d'.intersects d = false)
    ⟨fun h => ⟨h.1, h.2.1, h.2.2.1, h.2.2.2⟩,
      fun h => ⟨h.proper, h.start_ne_zero, h.spares, h.spares_each_other⟩⟩

theorem JitSafeRegions.tail {ds : List Dso} (hs : JitSafeRegions pidMapping.map (d :: ds))
    (hw : Ordered pidMapping.map) (h : Inserted pidMapping d pidMapping')
    (hw' : Ordered pidMapping'.map) : JitSafeRegions pidMapping'.map ds := by
  have hmem : ∀ x ∈ ds, x ∈ d :: ds := fun x hx => List.mem_cons_of_mem d hx
  refine ⟨fun x hx => hs.proper x (hmem x hx), fun x hx => hs.start_ne_zero x (hmem x hx), ?_,
    fun x hx hxt y hy hyt => hs.spares_each_other x (hmem x hx) hxt y (hmem y hy) hyt⟩
  intro x hx hxt e he het
  have hxle := (hs.proper x (hmem x hx)).le
  rcases h.within hw (hs.proper d List.mem_cons_self) he with hed | ⟨y, hy, hty, hstart, hend⟩
  · rw [hed] at het ⊢
    exact hs.spares_each_other x (hmem x hx) hxt d List.mem_cons_self het
  · have hno := hs.spares x (hmem x hx) hxt y hy (hty ▸ het)
    rw [← Bool.not_eq_true, Dso.intersects_iff (hw.le _ hy) hxle] at hno
    rw [← Bool.not_eq_true, Dso.intersects_iff (hw'.le _ he) hxle]
    omega

theorem JitMarked.insertedAll {ds : List Dso} (h : InsertedAll pidMapping ds pidMapping')
    (hj : JitMarked pidMapping) (hw : WellFormed pid pidMapping.map)
    (hpid : ∀ d ∈ ds, d.pid = pid) (hs : JitSafeRegions pidMapping.map ds) :
    JitMarked pidMapping' := by
  induction h with
  | nil => exact hj
  | @cons p p' p'' d ds hd hds ih =>
    have hproper := hs.proper d List.mem_cons_self
    have hw' := hd.wellFormed hw hproper (hpid d List.mem_cons_self)
    exact ih
      (hj.inserted hw.ordered hproper (hs.start_ne_zero d List.mem_cons_self)
        (hs.spares d List.mem_cons_self) hd)
      hw' (fun x hx => hpid x (List.mem_cons_of_mem d hx)) (hs.tail hw.ordered hd hw'.ordered)

namespace DsoHdr

def Marked (h : DsoHdr) : Prop := h.pidMap.All fun _ pidMapping => JitMarked pidMapping

variable {h : DsoHdr}

theorem Marked.get (hm : h.Marked) (pid : ℤ) : JitMarked (h.pidMap.get pid) :=
  UnorderedMap.All.get hm pid jitMarked_default

theorem Marked.setPidMapping (hm : h.Marked) {pid : ℤ} {pidMapping : PidMapping}
    (hj : JitMarked pidMapping) : (h.setPidMapping pid pidMapping).Marked :=
  UnorderedMap.All.insert hm hj

/-- The backpopulation state plays no part in the marker. -/
theorem jitMarked_withState (hj : JitMarked pidMapping) (state : BackpopulateState) :
    JitMarked { pidMapping with backpopulateState := state } :=
  ⟨hj.mem, hj.ne_zero⟩

/-- The process that a call inserts regions for; the other calls insert none. -/
def target : DsoOp → ℤ
  | .insertEraseOverlap dso => dso.pid
  | .maybeInsertEraseOverlap dso _ => dso.pid
  | .pidBackpopulate pid _ _ _ => pid
  | _ => 0

/-- A call is safe for the markers: the regions that it inserts are, and it does not fork a
process that has a jitdump region. -/
def JitSafe (h : DsoHdr) (op : DsoOp) : Prop :=
  JitSafeRegions (h.mapOf (target op)) (h.inserted op) ∧
    ∀ childPid parentPid, op = .pidFork childPid parentPid →
      AList.lookup childPid h.pidMap = none → ∀ e ∈ h.mapOf parentPid, e.2.type ≠ .jitDump

instance (h : DsoHdr) (op : DsoOp) : Decidable (h.JitSafe op) :=
  @instDecidableAnd _ _ _ <|
    match op with
    | .pidFork childPid parentPid =>
      decidable_of_iff (AList.lookup childPid h.pidMap = none →
          ∀ e ∈ (h.mapOf parentPid).entries, e.2.type ≠ .jitDump)
        ⟨fun hf c p heq => by cases heq; exact hf, fun hf => hf _ _ rfl⟩
    | .insertEraseOverlap _ | .maybeInsertEraseOverlap _ _ | .pidBackpopulate _ _ _ _
    | .pidFree _ | .clearUnvisited _ | .resetBackpopulateState _ =>
      isTrue fun _ _ heq => nomatch heq

theorem insertEraseOverlap_marked (hi : h.Inv) (hm : h.Marked) {d : Dso}
    (hs : JitSafeRegions (h.mapOf d.pid) [d]) :
    ∃ pidMapping' findRes,
      (h.pidMap.get d.pid).insertEraseOverlap d = .ok (pidMapping', findRes) ∧
      JitMarked pidMapping' := by
  have hd := hs.proper d List.mem_cons_self
  obtain ⟨pidMapping', hok, hins⟩ := insertEraseOverlap_spec (hi.get d.pid).ordered hd
  exact ⟨pidMapping', _, hok, (hm.get d.pid).inserted (hi.get d.pid).ordered hd
    (hs.start_ne_zero d List.mem_cons_self) (hs.spares d List.mem_cons_self) hins⟩

theorem pidBackpopulate_marked (hi : h.Inv) (hm : h.Marked) {pid : ℤ} (now nbEltsAdded : ℤ)
    {procMaps : Option (List (List Char))}
    (hs : (h.pidMap.get pid).backpopulateState.perm = .allowed → ∀ lines ∈ procMaps,
      JitSafeRegions (h.mapOf pid) (procRegions pid lines)) :
    ∃ h' res, h.pidBackpopulate pid now procMaps nbEltsAdded = .ok (h', res) ∧ h'.Marked := by
  by_cases hperm : (h.pidMap.get pid).backpopulateState.perm = .allowed
  · cases procMaps with
    | none =>
      exact ⟨_, _, pidBackpopulate_unopened hperm now nbEltsAdded,
        hm.setPidMapping (jitMarked_withState (hm.get pid) _)⟩
    | some lines =>
      have hsafe := hs hperm lines rfl
      obtain ⟨pidMapping', hall, -, hok⟩ :=
        pidBackpopulate_spec hi hperm hsafe.proper now nbEltsAdded
      have hj := (jitMarked_withState (hm.get pid) _).insertedAll hall (hi.get pid)
        (fun d hd => pid_of_mem_procRegions hd) hsafe
      exact ⟨_, _, hok, hm.setPidMapping (jitMarked_withState hj _)⟩
  · exact ⟨_, _, pidBackpopulate_forbidden hperm now procMaps nbEltsAdded,
      hm.setPidMapping (jitMarked_withState (hm.get pid) _)⟩

/-- The map of a child has the types of the map of its parent, and its marker is not set. -/
theorem pidFork_marked (hm : h.Marked) {childPid parentPid : ℤ}
    (hfork : AList.lookup childPid h.pidMap = none →
      ∀ e ∈ h.mapOf parentPid, e.2.type ≠ .jitDump) : (h.pidFork childPid parentPid).Marked := by
  unfold pidFork
  cases hp : AList.lookup parentPid h.pidMap with
  | none => exact hm
  | some parent =>
    cases hc : AList.lookup childPid h.pidMap with
    | some _ => simpa [hc] using hm
    | none =>
      have hmap : h.mapOf parentPid = parent.map := by
        rw [mapOf, UnorderedMap.get, hp, Option.getD_some]
      refine hm.setPidMapping ⟨fun hne => absurd rfl hne, fun e he ht => ?_⟩
      obtain ⟨x, hx, rfl⟩ := mem_copyMappings he
      exact absurd ht (hfork hc x (hmap ▸ hx))

theorem step_marked (hi : h.Inv) (hm : h.Marked) (op : DsoOp) (hop : h.JitSafe op) :
    ∃ h', h.step op = .ok h' ∧ h'.Inv ∧ h'.Marked := by
  obtain ⟨h', hok, hi'⟩ := step_inv hi op hop.1.proper
  refine ⟨h', hok, hi', ?_⟩
  cases op with
  | insertEraseOverlap d =>
    obtain ⟨pidMapping', findRes, hins, hj⟩ := insertEraseOverlap_marked hi hm hop.1
    rw [step, insertEraseOverlap, hins] at hok
    cases hok
    exact hm.setPidMapping hj
  | maybeInsertEraseOverlap d timestamp =>
    by_cases hold : timestamp < (h.pidMap.get d.pid).backpopulateState.lastBackpopulateTime
    · rw [step, maybeInsertEraseOverlap, if_pos hold] at hok
      cases hok
      exact hm.setPidMapping (hm.get d.pid)
    · have hregions := hop.1
      rw [inserted, if_neg hold] at hregions
      obtain ⟨pidMapping', findRes, hins, hj⟩ := insertEraseOverlap_marked hi hm hregions
      rw [step, maybeInsertEraseOverlap, if_neg hold, hins] at hok
      cases hok
      exact hm.setPidMapping hj
  | pidBackpopulate pid now procMaps nbEltsAdded =>
    have hregions : (h.pidMap.get pid).backpopulateState.perm = .allowed →
        ∀ lines ∈ procMaps, JitSafeRegions (h.mapOf pid) (procRegions pid lines) := by
      rintro hperm lines hsome
      rw [Option.mem_def] at hsome
      subst hsome
      have := hop.1
      rw [inserted, if_pos hperm] at this
      exact this
    obtain ⟨h'', res, hbp, hm'⟩ := pidBackpopulate_marked hi hm now nbEltsAdded
      hregions
    rw [step, hbp] at hok
    cases hok
    exact hm'
  | pidFork childPid parentPid =>
    cases hok
    exact pidFork_marked hm (hop.2 _ _ rfl)
  | pidFree pid =>
    cases hok
    exact UnorderedMap.All.erase hm pid
  | clearUnvisited visitedPids =>
    cases hok
    exact UnorderedMap.All.eraseAll hm _
  | resetBackpopulateState resetThreshold =>
    cases hok
    refine UnorderedMap.All.mapValues hm fun pid pidMapping hj => ?_
    split_ifs
    · exact jitMarked_withState hj _
    · exact hj

/-- In every state that a run of safe calls reaches, the marker of every process is
consistent with its map. -/
theorem jitConsistent_of_run (ops : List DsoOp)
    (hops : Run.Along (fun h op => (step h op).toOption) JitSafe {} ops) :
    ∃ h, Run.exec step {} ops = .ok h ∧ ∀ pid, JitConsistent (h.pidMap.get pid) := by
  obtain ⟨h, hok, hi, hm⟩ := Run.exec_invariant
    (fun h op (hinv : h.Inv ∧ h.Marked) hop => step_marked hinv.1 hinv.2 op hop)
    ⟨inv_empty, UnorderedMap.all_empty⟩ hops
  exact ⟨h, hok, fun pid => (hm.get pid).consistent (hi.get pid).ordered⟩

def jitMapping : Dso := .make 7 0x5000 0x5fff 0 "/tmp/jit-7.dump".toList 9 5 .perfMmapEvent

/-- A jitdump region, a library next to it, a new jitdump region over the first one, and the
maps as `/proc` shows them. -/
theorem jitConsistent_of_run_remapped :
    ∃ h, Run.exec step {}
        [.insertEraseOverlap jitMapping,
          .maybeInsertEraseOverlap (.make 7 0x6000 0x7fff 0 "/lib/a.so".toList 3 5
            .perfMmapEvent) 1,
          .pidFork 8 9,
          .maybeInsertEraseOverlap { jitMapping with start := 0x4000 } 2,
          .pidBackpopulate 7 5 (some ["4000-6000 r-xp 00000000 fe:01 9 /tmp/jit-7.dump\n".toList])
            0] = .ok h ∧
      ∀ pid, JitConsistent (h.pidMap.get pid) :=
  jitConsistent_of_run _ (by decide +kernel)

/-- A library mapped over the jitdump region leaves a marker that leads to the library, and a
fork copies the region without the marker. -/
theorem jitMarker_stale_and_lost :
    (∃ h, Run.exec step {}
        [.insertEraseOverlap jitMapping,
          .insertEraseOverlap (.make 7 0x5000 0x7fff 0 "/lib/a.so".toList 3 5 .perfMmapEvent)] =
          .ok h ∧ ¬ JitConsistent (h.pidMap.get 7)) ∧
      ∃ h, Run.exec step {} [.insertEraseOverlap jitMapping, .pidFork 8 7] = .ok h ∧
        ¬ JitConsistent (h.pidMap.get 8) := by
  constructor
  · have hend : ((Run.exec step {}
        [.insertEraseOverlap jitMapping,
          .insertEraseOverlap (.make 7 0x5000 0x7fff 0 "/lib/a.so".toList 3 5
            .perfMmapEvent)]).toOption.any fun h =>
        decide ((h.pidMap.get 7).jitdumpAddr ≠ 0 ∧
          ∀ e ∈ (h.pidMap.get 7).map.entries, e.2.type ≠ .jitDump)) = true := by
      decide +kernel
    obtain ⟨h, hrun, htest⟩ := (Option.any_eq_true _ _).mp hend
    obtain ⟨hne, hnone⟩ := of_decide_eq_true htest
    refine ⟨h, Run.eq_ok_of_toOption hrun, fun hc => ?_⟩
    obtain ⟨e, he, ht⟩ := hc.marked_iff.mp hne
    exact hnone e he ht
  · have hend : ((Run.exec step {}
        [.insertEraseOverlap jitMapping, .pidFork 8 7]).toOption.any fun h =>
        decide ((h.pidMap.get 8).jitdumpAddr = 0 ∧
          ∃ e ∈ (h.pidMap.get 8).map.entries, e.2.type = .jitDump)) = true := by
      decide +kernel
    obtain ⟨h, hrun, htest⟩ := (Option.any_eq_true _ _).mp hend
    obtain ⟨hzero, hjit⟩ := of_decide_eq_true htest
    exact ⟨h, Run.eq_ok_of_toOption hrun, fun hc => hc.marked_iff.mpr hjit hzero⟩

end DsoHdr

end Ddprof
