import Ddprof.Dso.Scan

/-!
The lines that the kernel prints in `/proc/<pid>/maps`, and what becomes of them.

A region is printed as its bounds, its rights, the offset, the device and the inode, and then,
behind blanks, the path. The path is the rest of the line, so that it may hold blanks.
-/

namespace Ddprof

open Scanner (HeadNot headNot_cons headNot_nil)

def isPathBlank (c : Char) : Bool := c = ' ' || c = '\t'

structure ProcRegion where
  start : ℕ
  stop : ℕ
  read : Bool
  write : Bool
  exec : Bool
  shared : Bool
  offset : ℕ
  devMajor : ℕ
  devMinor : ℕ
  inode : ℕ
  path : List Char
  start_lt : start < stop
  stop_lt : stop < addrSpace
  offset_lt : offset < addrSpace
  devMajor_lt : devMajor < 2 ^ 32
  devMinor_lt : devMinor < 2 ^ 32
  inode_lt : inode < addrSpace
  /-- The path is empty or begins with something that is not blank. -/
  path_head : HeadNot isPathBlank path
  path_line : '\n' ∉ path

namespace ProcRegion

/-- `r-xp` -/
def mode (r : ProcRegion) : List Char :=
  [if r.read then 'r' else '-', if r.write then 'w' else '-', if r.exec then 'x' else '-',
    if r.shared then 's' else 'p']

def prot (r : ProcRegion) : ℕ :=
  (if r.read then protRead else 0) ||| (if r.write then protWrite else 0) |||
    (if r.exec then protExec else 0)

def fields (r : ProcRegion) (rest : List Char) : List Char :=
  Numerals.padded 8 16 r.start ++ '-' :: (Numerals.padded 8 16 r.stop ++ ' ' :: (r.mode ++
    ' ' :: (Numerals.padded 8 16 r.offset ++ ' ' :: (Numerals.padded 2 16 r.devMajor ++
      ':' :: (Numerals.padded 2 16 r.devMinor ++ ' ' :: (Nat.toDigits 10 r.inode ++
        rest))))))

/-- The line of a region, with the blanks in front of the path, and the line end if it is kept. -/
def line (r : ProcRegion) (padding : List Char) (newline : Bool) : List Char :=
  r.fields (' ' :: (padding ++ (r.path ++ if newline then ['\n'] else [])))

variable (r : ProcRegion)

theorem chars_mode (t : List Char) :
    Scan.chars 4 (Scan.skipSpace (' ' :: (r.mode ++ t))) = some (r.mode, t) := by
  have hskip : Scan.skipSpace (' ' :: (r.mode ++ t)) = r.mode ++ t := by
    cases hread : r.read <;> simp [mode, hread, Scan.skipSpace, Scan.isSpace]
  rw [hskip]
  simp [mode, Scan.chars]

theorem modeStringToProt_mode : modeStringToProt r.mode = r.prot := by
  cases hread : r.read <;> cases hwrite : r.write <;> cases hexec : r.exec <;>
    simp [modeStringToProt, mode, prot, hread, hwrite, hexec]

theorem scanProcLine_fields {rest : List Char} (hrest : HeadNot (Scan.isDigitOf 10) rest)
    (hx : HeadNot (fun c => c = 'x' || c = 'X') rest) :
    scanProcLine (r.fields rest) =
      some { start := r.start, stop := r.stop, mode := r.mode, offset := r.offset,
             inode := r.inode, rest := rest } := by
  have hsep : ∀ {c : Char} (t : List Char), Scan.isDigitOf 16 c = false → c ≠ 'x' ∧ c ≠ 'X' →
      HeadNot (Scan.isDigitOf 16) (c :: t) ∧ HeadNot (fun c => c = 'x' || c = 'X') (c :: t) :=
    fun t hc hne => ⟨headNot_cons.mpr hc, headNot_cons.mpr (by simp [hne])⟩
  have hnumber : ∀ {width n : ℕ} {c : Char} (t : List Char), n < addrSpace →
      Scan.isDigitOf 16 c = false → c ≠ 'x' ∧ c ≠ 'X' →
      Scan.unsigned 16 (Numerals.padded width 16 n ++ c :: t) = some (n, c :: t) :=
    fun t hn hc hne => Scan.unsigned_padded (.inr rfl) hn (hsep t hc hne).1 (hsep t hc hne).2
  have hskip : ∀ {width n : ℕ} (t : List Char),
      Scan.skipSpace (' ' :: (Numerals.padded width 16 n ++ t)) =
        Numerals.padded width 16 n ++ t :=
    fun t => Scan.skipSpace_blank_padded (by decide) le_rfl _ _ t
  have hinode : Scan.skipSpace (' ' :: (Nat.toDigits 10 r.inode ++ rest)) =
      Nat.toDigits 10 r.inode ++ rest := by
    rw [← Numerals.padded_zero]
    exact Scan.skipSpace_blank_padded (by decide) (by decide) 0 r.inode rest
  have hsmall : ∀ {n : ℕ}, n < 2 ^ 32 → n < addrSpace := fun h => h.trans (by decide)
  unfold scanProcLine fields
  rw [hnumber _ (r.start_lt.trans r.stop_lt) (by decide) (by decide)]
  simp only [Option.bind_eq_bind, Option.bind_some, Scan.literal, if_true]
  rw [hnumber _ r.stop_lt (by decide) (by decide)]
  simp only [Option.bind_some, chars_mode, hskip]
  rw [hnumber _ r.offset_lt (by decide) (by decide)]
  simp only [Option.bind_some, hskip]
  rw [hnumber _ (hsmall r.devMajor_lt) (by decide) (by decide)]
  simp only [Option.bind_some, if_true]
  rw [hnumber _ (hsmall r.devMinor_lt) (by decide) (by decide)]
  simp only [Option.bind_some, hinode]
  rw [Scan.unsigned_toDigits (.inl rfl) r.inode_lt hrest hx]
  rfl

theorem trimPath_line {padding : List Char} (hpadding : ∀ c ∈ padding, isPathBlank c = true)
    (newline : Bool) :
    trimPath (' ' :: (padding ++ (r.path ++ if newline then ['\n'] else []))) = r.path := by
  have hblank : (fun c : Char => decide (c = ' ') || decide (c = '\t')) = isPathBlank := rfl
  have hhead : HeadNot isPathBlank (r.path ++ if newline then ['\n'] else []) := by
    cases hpath : r.path with
    | nil =>
      cases newline
      · exact headNot_nil
      · exact headNot_cons.mpr (by decide)
    | cons c path =>
      have := r.path_head
      rw [hpath] at this
      exact headNot_cons.mpr (headNot_cons.mp this)
  have hdrop : (' ' :: (padding ++ (r.path ++ if newline then ['\n'] else []))).dropWhile
      isPathBlank = r.path ++ if newline then ['\n'] else [] := by
    rw [List.dropWhile_cons_of_pos (by decide), List.dropWhile_append_of_pos hpadding,
      hhead.dropWhile]
  unfold trimPath
  rw [hblank, hdrop]
  cases newline with
  | true => simp
  | false =>
    simp only [Bool.false_eq_true, if_false, List.append_nil]
    rw [if_neg]
    intro hlast
    exact r.path_line (List.mem_of_getLast? hlast)

/-- The line that the kernel prints for a region, with or without the line end and with any number
of blanks in front of the path, is read as that region: with its bounds, offset, inode, rights and
path. -/
theorem dsoFromProcLine_line (pid : ℤ) (padding : List Char)
    (hpadding : ∀ c ∈ padding, isPathBlank c = true) (newline : Bool) :
    dsoFromProcLine pid (r.line padding newline) =
      Dso.make pid r.start (r.stop - 1) r.offset r.path r.inode r.prot .procMaps := by
  have hstop : (r.stop + (addrSpace - 1)) % addrSpace = r.stop - 1 := by
    have hstart := r.start_lt
    have hlt := r.stop_lt
    have heq : r.stop + (addrSpace - 1) = (r.stop - 1) + addrSpace := by
      unfold addrSpace
      omega
    rw [heq, Nat.add_mod_right, Nat.mod_eq_of_lt (by omega)]
  unfold dsoFromProcLine line
  rw [scanProcLine_fields r (headNot_cons.mpr (by decide)) (headNot_cons.mpr (by decide))]
  simp only [hstop, trimPath_line r hpadding newline, modeStringToProt_mode]

theorem dsoFromProcLine_line_tab :
    (∀ c ∈ "  \t".toList, isPathBlank c = true) ∧
      dsoFromProcLine 7
          "55d7883a1000-55d7883a5000 r-xp 00002000 fe:01 3287864   \t/usr/bin/a b\n".toList =
        Dso.make 7 0x55d7883a1000 0x55d7883a4fff 0x2000 "/usr/bin/a b".toList 3287864
            (protRead ||| protExec) .procMaps := by
  have hblank : ∀ c ∈ "  \t".toList, isPathBlank c = true := List.all_eq_true.mp (by decide)
  refine ⟨hblank, ?_⟩
  exact dsoFromProcLine_line
    { start := 0x55d7883a1000, stop := 0x55d7883a5000, read := true, write := false, exec := true,
      shared := false, offset := 0x2000, devMajor := 0xfe, devMinor := 1, inode := 3287864,
      path := "/usr/bin/a b".toList, start_lt := by decide, stop_lt := by decide,
      offset_lt := by decide, devMajor_lt := by decide, devMinor_lt := by decide,
      inode_lt := by decide, path_head := by decide, path_line := by decide } 7 _ hblank true

end ProcRegion

end Ddprof
