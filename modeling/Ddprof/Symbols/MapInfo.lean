import Ddprof.Lib.UnorderedMap
import Ddprof.Dso.Basic

/-!
`MapInfoLookup`: the descriptions of mappings that locations in a profile refer to.

A description is created from a `Dso` the first time that its process and start address are
looked up, and it is found again by process and start address alone. So what a lookup returns
describes the mapping that was there at that first time, until the process is erased.
-/

namespace Ddprof

structure MapInfo where
  lowAddr : ℕ := 0
  highAddr : ℕ := 0
  offset : ℕ := 0
  sopath : List Char := []
  buildId : List Char := []
  deriving DecidableEq, Repr

abbrev MapInfoTable := List MapInfo

/-- `rfind('/')` and `substr`: the last component of the path, or all of it. -/
def Dso.baseName (d : Dso) : List Char := (afterLastSlash d.filename).getD d.filename

def MapInfo.ofDso (dso : Dso) (buildId : Option (List Char)) : MapInfo where
  lowAddr := dso.start
  highAddr := dso.endAddr
  offset := dso.offset
  sopath := dso.baseName
  buildId := buildId.getD []

/-- The description has the addresses, the offset and the base file name of the mapping. -/
def MapInfo.Describes (info : MapInfo) (dso : Dso) : Prop :=
  info.lowAddr = dso.start ∧ info.highAddr = dso.endAddr ∧ info.offset = dso.offset ∧
    info.sopath = dso.baseName

/-- The two mappings agree in what a description says of them, given the same start. -/
def Dso.SameMapping (d dso : Dso) : Prop :=
  d.endAddr = dso.endAddr ∧ d.offset = dso.offset ∧ d.baseName = dso.baseName

theorem MapInfo.ofDso_describes_iff {d dso : Dso} (hstart : d.start = dso.start)
    (buildId : Option (List Char)) :
    (MapInfo.ofDso d buildId).Describes dso ↔ d.SameMapping dso :=
  ⟨And.right, fun h => ⟨hstart, h⟩⟩

structure MapInfoLookup where
  mapinfoPidmap : UnorderedMap ℤ (UnorderedMap ℕ ℕ) := ∅

namespace MapInfoLookup

def find (lookup : MapInfoLookup) (pid : ℤ) (start : ℕ) : Option ℕ :=
  AList.lookup start (lookup.mapinfoPidmap.get pid)

/-- The access to the pid map creates the entry of an unknown process. -/
def getOrInsert (lookup : MapInfoLookup) (pid : ℤ) (mapinfoTable : MapInfoTable) (dso : Dso)
    (buildId : Option (List Char)) : MapInfoLookup × MapInfoTable × ℕ :=
  let addrMap := lookup.mapinfoPidmap.get pid
  match AList.lookup dso.start addrMap with
  | some mapInfoIdx => (⟨lookup.mapinfoPidmap.insert pid addrMap⟩, mapinfoTable, mapInfoIdx)
  | none =>
    let mapInfoIdx := mapinfoTable.length
    (⟨lookup.mapinfoPidmap.insert pid (addrMap.insert dso.start mapInfoIdx)⟩,
      mapinfoTable ++ [MapInfo.ofDso dso buildId], mapInfoIdx)

/-- The elements of the table are not removed. -/
def erase (lookup : MapInfoLookup) (pid : ℤ) : MapInfoLookup :=
  ⟨lookup.mapinfoPidmap.erase pid⟩

variable {lookup : MapInfoLookup} {pid : ℤ} {start : ℕ}

theorem find_insert (addrMap : UnorderedMap ℕ ℕ) (pid' : ℤ) (start' : ℕ) :
    find ⟨lookup.mapinfoPidmap.insert pid addrMap⟩ pid' start' =
      if pid' = pid then AList.lookup start' addrMap else lookup.find pid' start' := by
  unfold find
  split_ifs with hpid
  · rw [hpid, UnorderedMap.get_insert]
  · rw [UnorderedMap.get_insert_ne _ _ hpid]

theorem find_erase (pid' : ℤ) (start' : ℕ) :
    (lookup.erase pid).find pid' start' =
      if pid' = pid then none else lookup.find pid' start' := by
  unfold find erase UnorderedMap.get
  split_ifs with hpid
  · rw [hpid, AList.lookup_erase]
    rfl
  · rw [AList.lookup_erase_ne hpid]

theorem getOrInsert_of_cached (mapinfoTable : MapInfoTable) {dso : Dso} {idx : ℕ}
    (hfind : lookup.find pid dso.start = some idx) (buildId : Option (List Char)) :
    (lookup.getOrInsert pid mapinfoTable dso buildId).2 = (mapinfoTable, idx) ∧
      ∀ pid' start', (lookup.getOrInsert pid mapinfoTable dso buildId).1.find pid' start' =
        lookup.find pid' start' := by
  unfold getOrInsert
  simp only [show AList.lookup dso.start (lookup.mapinfoPidmap.get pid) = some idx from hfind,
    true_and]
  intro pid' start'
  rw [find_insert]
  split_ifs with hpid
  · rw [hpid]
    rfl
  · rfl

theorem getOrInsert_of_new (mapinfoTable : MapInfoTable) {dso : Dso}
    (hfind : lookup.find pid dso.start = none) (buildId : Option (List Char)) :
    (lookup.getOrInsert pid mapinfoTable dso buildId).2 =
        (mapinfoTable ++ [MapInfo.ofDso dso buildId], mapinfoTable.length) ∧
      ∀ pid' start', (lookup.getOrInsert pid mapinfoTable dso buildId).1.find pid' start' =
        if pid' = pid ∧ start' = dso.start then some mapinfoTable.length
        else lookup.find pid' start' := by
  unfold getOrInsert
  simp only [show AList.lookup dso.start (lookup.mapinfoPidmap.get pid) = none from hfind,
    true_and]
  intro pid' start'
  rw [find_insert]
  by_cases hpid : pid' = pid
  · subst hpid
    by_cases hstart : start' = dso.start
    · rw [if_pos rfl, if_pos ⟨rfl, hstart⟩, hstart, AList.lookup_insert]
    · rw [if_pos rfl, if_neg (fun h => hstart h.2), AList.lookup_insert_ne hstart]
      rfl
  · rw [if_neg hpid, if_neg (fun h => hpid h.1)]

end MapInfoLookup

/-! ### Histories of calls -/

/-- The calls on a lookup and its table. Another user of the table, `CommonMapInfoLookup`, adds
elements to it. -/
inductive MapInfoCall
  | getOrInsert (pid : ℤ) (dso : Dso) (buildId : Option (List Char))
  | erase (pid : ℤ)
  | pushBack (info : MapInfo)
  deriving DecidableEq, Repr

structure MapInfos where
  lookup : MapInfoLookup := {}
  table : MapInfoTable := []

namespace MapInfos

def step (s : MapInfos) : MapInfoCall → MapInfos
  | .getOrInsert pid dso buildId =>
    let (lookup, table, _) := s.lookup.getOrInsert pid s.table dso buildId
    ⟨lookup, table⟩
  | .erase pid => { s with lookup := s.lookup.erase pid }
  | .pushBack info => { s with table := s.table ++ [info] }

/-- The mapping of the first lookup of a process and a start address since the process was last
erased, updated by one more call. -/
def remember (pid : ℤ) (start : ℕ) (first : Option Dso) : MapInfoCall → Option Dso
  | .getOrInsert pid' dso _ =>
    if pid' = pid ∧ dso.start = start then some (first.getD dso) else first
  | .erase pid' => if pid' = pid then none else first
  | .pushBack _ => first

def firstSinceErase (calls : List MapInfoCall) (pid : ℤ) (start : ℕ) : Option Dso :=
  calls.foldl (remember pid start) none

/-- The index that is cached for a process and a start address is that of a description of the
mapping that was looked up first. -/
def Remembers (s : MapInfos) (pid : ℤ) (start : ℕ) : Option Dso → Prop
  | none => s.lookup.find pid start = none
  | some d => d.start = start ∧ ∃ idx buildId, s.lookup.find pid start = some idx ∧
      s.table[idx]? = some (MapInfo.ofDso d buildId)

variable {s : MapInfos} {pid : ℤ} {start : ℕ} {first : Option Dso}

theorem Remembers.extend (h : s.Remembers pid start first) {s' : MapInfos}
    (hfind : s'.lookup.find pid start = s.lookup.find pid start)
    (htable : s.table <+: s'.table) : s'.Remembers pid start first := by
  cases first with
  | none => exact hfind.trans h
  | some d =>
    obtain ⟨hstart, idx, buildId, hidx, hinfo⟩ := h
    obtain ⟨rest, hrest⟩ := htable
    refine ⟨hstart, idx, buildId, hfind.trans hidx, ?_⟩
    rw [← hrest, List.getElem?_append_left (List.getElem?_eq_some_iff.mp hinfo).1]
    exact hinfo

theorem Remembers.find_isSome (h : s.Remembers pid start first) :
    (s.lookup.find pid start).isSome = first.isSome := by
  cases first with
  | none => rw [show s.lookup.find pid start = none from h]; rfl
  | some d =>
    obtain ⟨-, idx, -, hidx, -⟩ := h
    rw [hidx]
    rfl

theorem Remembers.getOrInsert (h : s.Remembers pid start first) (pid' : ℤ) (dso : Dso)
    (buildId : Option (List Char)) :
    (s.step (.getOrInsert pid' dso buildId)).Remembers pid start
      (remember pid start first (.getOrInsert pid' dso buildId)) := by
  cases hfind : s.lookup.find pid' dso.start with
  | some idx =>
    obtain ⟨hres, hkeep⟩ := MapInfoLookup.getOrInsert_of_cached s.table hfind buildId
    have hfirst : remember pid start first (.getOrInsert pid' dso buildId) = first := by
      simp only [remember]
      split_ifs with heq
      · obtain ⟨rfl, rfl⟩ := heq
        have hsome := h.find_isSome
        rw [hfind] at hsome
        obtain ⟨d, rfl⟩ := Option.isSome_iff_exists.mp hsome.symm
        rfl
      · rfl
    rw [hfirst]
    refine h.extend (hkeep pid start) ?_
    simp only [MapInfos.step, hres]
    exact List.prefix_rfl
  | none =>
    obtain ⟨hres, hfinds⟩ := MapInfoLookup.getOrInsert_of_new s.table hfind buildId
    by_cases heq : pid' = pid ∧ dso.start = start
    · obtain ⟨rfl, rfl⟩ := heq
      have hnone := h.find_isSome
      rw [hfind] at hnone
      obtain rfl : first = none := Option.isNone_iff_eq_none.mp (by simpa using hnone.symm)
      simp only [remember, and_self, if_true, Option.getD_none]
      refine ⟨rfl, s.table.length, buildId, (hfinds _ _).trans (if_pos ⟨rfl, rfl⟩), ?_⟩
      simp only [MapInfos.step, hres]
      simp
    · simp only [remember, if_neg heq]
      refine h.extend ((hfinds _ _).trans (if_neg fun hne => heq ⟨hne.1.symm, hne.2.symm⟩)) ?_
      simp only [MapInfos.step, hres]
      exact List.prefix_append _ _

theorem Remembers.step (h : s.Remembers pid start first) (call : MapInfoCall) :
    (s.step call).Remembers pid start (remember pid start first call) := by
  cases call with
  | getOrInsert pid' dso buildId => exact h.getOrInsert pid' dso buildId
  | erase pid' =>
    simp only [remember]
    split_ifs with hpid
    · exact (MapInfoLookup.find_erase _ _).trans (if_pos hpid.symm)
    · exact h.extend ((MapInfoLookup.find_erase _ _).trans (if_neg (Ne.symm hpid)))
        List.prefix_rfl
  | pushBack info => exact h.extend rfl (List.prefix_append _ _)

theorem remembers_of_run (calls : List MapInfoCall) (pid : ℤ) (start : ℕ) :
    (calls.foldl step {}).Remembers pid start (firstSinceErase calls pid start) := by
  have hrun : ∀ (calls : List MapInfoCall) (s : MapInfos) (first : Option Dso),
      s.Remembers pid start first →
      (calls.foldl MapInfos.step s).Remembers pid start
        (calls.foldl (remember pid start) first) := by
    intro calls
    induction calls with
    | nil => exact fun s first h => h
    | cons call rest ih => exact fun s first h => ih _ _ (h.step call)
  exact hrun calls {} none rfl

/-- After any history, a lookup returns the index of a description of the mapping that it is
given exactly if the first lookup of the process and the start address, since the process was
last erased, was given the same mapping. -/
theorem getOrInsert_describes_iff (calls : List MapInfoCall) (pid : ℤ) (dso : Dso)
    (buildId : Option (List Char)) :
    let s := calls.foldl step {}
    let res := s.lookup.getOrInsert pid s.table dso buildId
    (∃ info, res.2.1[res.2.2]? = some info ∧ info.Describes dso) ↔
      ∀ d, firstSinceErase calls pid dso.start = some d → d.SameMapping dso := by
  intro s res
  have hrun : s.Remembers pid dso.start (firstSinceErase calls pid dso.start) :=
    remembers_of_run calls pid dso.start
  cases hfirst : firstSinceErase calls pid dso.start with
  | none =>
    rw [hfirst] at hrun
    have hres : res.2 = _ :=
      (MapInfoLookup.getOrInsert_of_new s.table hrun buildId).1
    rw [hres]
    refine iff_of_true ⟨MapInfo.ofDso dso buildId, by simp, ?_⟩ fun d hd => nomatch hd
    exact (MapInfo.ofDso_describes_iff rfl buildId).mpr ⟨rfl, rfl, rfl⟩
  | some d =>
    rw [hfirst] at hrun
    obtain ⟨hstart, idx, buildId', hidx, hinfo⟩ := hrun
    have hres : res.2 = _ :=
      (MapInfoLookup.getOrInsert_of_cached s.table hidx buildId).1
    have hiff := MapInfo.ofDso_describes_iff hstart buildId'
    rw [hres]
    constructor
    · rintro ⟨info, hinfo', hdescribes⟩ d' hd'
      obtain rfl := Option.some.inj hd'
      rw [hinfo] at hinfo'
      obtain rfl := Option.some.inj hinfo'
      exact hiff.mp hdescribes
    · exact fun hsame => ⟨_, hinfo, hiff.mpr (hsame d rfl)⟩

/-- A library is unmapped, and another file is mapped at its start. -/
theorem getOrInsert_staleMapping :
    let libA : Dso := .make 7 0x1000 0x1fff 0 "/lib/a.so".toList 3 5 .perfMmapEvent
    let libB : Dso := .make 7 0x1000 0x8fff 0x200 "/lib/b.so".toList 4 5 .perfMmapEvent
    let s := ({} : MapInfos).step (.getOrInsert 7 libA none)
    let res := s.lookup.getOrInsert 7 s.table libB none
    res.2.1[res.2.2]? = some (MapInfo.ofDso libA none) ∧
      ¬ (MapInfo.ofDso libA none).Describes libB := by
  refine ⟨by decide +kernel, ?_⟩
  rintro ⟨-, hend, -⟩
  exact absurd hend (by decide)

end MapInfos

end Ddprof
