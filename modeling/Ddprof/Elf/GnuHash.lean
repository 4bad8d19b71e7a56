import Ddprof.Elf.Hashes

/-!
The GNU hash table of a library: lookup of a symbol, and the number of symbols.

A table is read word by word. It has a header of four words, a filter of 64-bit words, the buckets,
and one word for each symbol that is hashed, which are the symbols from `symbias` on. Symbols of
one bucket are next to each other; a bucket holds the index of the first of them, and the words of
the symbols say where they end. `none` stands for a read that is not of a word of the table, or of
an entry of the symbol table.
-/

namespace Ddprof

/-! ### Symbols -/

/-- `ElfW(Sym)`, with its name in place of the offset of the name. -/
structure SymtabEntry where
  stName : ElfName
  stInfo : BitVec 8
  stShndx : BitVec 16
  stValue : BitVec 64
  deriving DecidableEq, Repr

/-- `SHN_ABS` -/
def shnAbs : BitVec 16 := 0xfff1

/-- `STT_TLS` -/
def sttTls : BitVec 8 := 6

/-- The bits of `STT_NOTYPE`, `STT_OBJECT`, `STT_FUNC`, `STT_COMMON`, `STT_TLS` and
`STT_GNU_IFUNC`. -/
def symbolTypes : BitVec 32 :=
  1 <<< 0 ||| 1 <<< 1 ||| 1 <<< 2 ||| 1 <<< 5 ||| 1 <<< 6 ||| 1 <<< 10

def check (sym : SymtabEntry) (name : ElfName) : Bool :=
  let stt := sym.stInfo &&& 0xf
  if sym.stValue = 0 ∧ sym.stShndx ≠ shnAbs ∧ stt ≠ sttTls then false
  else if (1#32 <<< stt) &&& symbolTypes = 0 then false
  else name == sym.stName

theorem eq_stName_of_check {sym : SymtabEntry} {name : ElfName} (h : check sym name = true) :
    name = sym.stName := by
  rw [check] at h
  split_ifs at h
  exact eq_of_beq h

/-! ### Tables -/

/-- The words from `&chain_zero[idx]` on. Outside of the table there are none. -/
def chainZero (words : List (BitVec 32)) (chain symbias idx : ℕ) : List (BitVec 32) :=
  if symbias ≤ chain + idx then words.drop (chain + idx - symbias) else []

/-- Two words of the table as one of the filter. -/
def bloomWord (words : List (BitVec 32)) (i : ℕ) : Option (BitVec 64) :=
  words[i]?.bind fun lo => words[i + 1]?.map fun hi => hi ++ lo

/-- The loop of the lookup over the words of the symbols. -/
def gnuHashChain (symtab : List SymtabEntry) (symname : ElfName) (hash : BitVec 32) :
    List (BitVec 32) → ℕ → Option (Option ℕ)
  | [], _ => none
  | h :: chain, symidx =>
    let accepted :=
      if (h ^^^ hash) >>> 1 = 0 then symtab[symidx]?.map (check · symname) else some false
    match accepted with
    | none => none
    | some true => some (some symidx)
    | some false =>
      if h &&& 1 ≠ 0 then some none else gnuHashChain symtab symname hash chain (symidx + 1)

def gnuHashLookup (symtab : List SymtabEntry) (words : List (BitVec 32)) (symname : ElfName) :
    Option (Option ℕ) := do
  let nbuckets : BitVec 32 ← words[0]?
  let symbias : BitVec 32 ← words[1]?
  let bloomSize : BitVec 32 ← words[2]?
  let bloomShift : BitVec 32 ← words[3]?
  let buckets := 4 + 2 * bloomSize.toNat
  let chain := buckets + nbuckets.toNat
  if nbuckets = 0 then return none
  let hash := gnuHash symname
  let bitmaskWord ← bloomWord words (4 + 2 * (hash / 64 &&& (bloomSize - 1)).toNat)
  let hashbit1 := hash &&& 63
  let hashbit2 := (hash >>> bloomShift) &&& 63
  if (bitmaskWord >>> hashbit1) &&& (bitmaskWord >>> hashbit2) &&& 1 = 0 then return none
  let symidx ← words[buckets + (hash % nbuckets).toNat]?
  if symidx = 0 then return none
  gnuHashChain symtab symname hash (chainZero words chain symbias.toNat symidx.toNat) symidx.toNat

/-- The loop to the end of the chain. -/
def chainEnd : List (BitVec 32) → ℕ → Option ℕ
  | [], _ => none
  | h :: chain, idx => if h &&& 1 ≠ 0 then some ((idx + 1) % 2 ^ 32) else chainEnd chain (idx + 1)

/-- `*std::max_element` -/
def maxElement (buckets : List (BitVec 32)) : Option ℕ := (buckets.map BitVec.toNat).max?

def gnuHashSymbolCount (words : List (BitVec 32)) : Option ℕ := do
  let nbuckets : BitVec 32 ← words[0]?
  let symbias : BitVec 32 ← words[1]?
  let bloomSize : BitVec 32 ← words[2]?
  let buckets := 4 + 2 * bloomSize.toNat
  let chain := buckets + nbuckets.toNat
  if nbuckets = 0 then return 0
  -- all buckets are read
  if words.length < chain then none
  else
    let idx ← maxElement ((words.drop buckets).take nbuckets.toNat)
    chainEnd (chainZero words chain symbias.toNat idx) idx

/-! ### Well-formed tables -/

structure GnuHashTable where
  symbias : BitVec 32
  bloomShift : BitVec 32
  bloom : List (BitVec 64)
  buckets : List (BitVec 32)
  chain : List (BitVec 32)

namespace GnuHashTable

/-- The words of the filter, the lower half of each first. -/
def bloomWords (bloom : List (BitVec 64)) : List (BitVec 32) :=
  bloom.flatMap fun (w : BitVec 64) => [w.setWidth 32, (w >>> 32).setWidth 32]

def words (t : GnuHashTable) : List (BitVec 32) :=
  [BitVec.ofNat 32 t.buckets.length, t.symbias, BitVec.ofNat 32 t.bloom.length, t.bloomShift] ++
    (bloomWords t.bloom ++ (t.buckets ++ t.chain))

/-- The hash of the symbol with a word. -/
def hashAt (t : GnuHashTable) (symtab : List SymtabEntry) (i : ℕ) : BitVec 32 :=
  (symtab[t.symbias.toNat + i]?.map fun sym => gnuHash sym.stName).getD 0

def bucketAt (t : GnuHashTable) (symtab : List SymtabEntry) (i : ℕ) : ℕ :=
  (t.hashAt symtab i).toNat % t.buckets.length

def Ends (t : GnuHashTable) (symtab : List SymtabEntry) (i : ℕ) : Prop :=
  i + 1 = t.chain.length ∨ t.bucketAt symtab (i + 1) ≠ t.bucketAt symtab i

instance (t : GnuHashTable) (symtab : List SymtabEntry) (i : ℕ) : Decidable (t.Ends symtab i) :=
  inferInstanceAs (Decidable (_ ∨ _))

/-- A hash with its lowest bit replaced by a mark. -/
def chainWord (hash : BitVec 32) (mark : Prop) [Decidable mark] : BitVec 32 :=
  (hash &&& ~~~1#32) ||| if mark then 1#32 else 0#32

/-- Both bits of a hash are in the filter. -/
def Filters (t : GnuHashTable) (hash : BitVec 32) : Prop :=
  ∃ word, t.bloom[hash.toNat / 64 % t.bloom.length]? = some word ∧
    word.getLsbD (hash.toNat % 64) = true ∧
    word.getLsbD ((hash.toNat >>> t.bloomShift.toNat) % 64) = true

/-- A bucket is empty, or holds the index of its first symbol. -/
def BucketHolds (t : GnuHashTable) (symtab : List SymtabEntry) (b : ℕ) (word : BitVec 32) : Prop :=
  (word = 0 ∧ ∀ i < t.chain.length, t.bucketAt symtab i ≠ b) ∨
    ∃ i < t.chain.length, word.toNat = t.symbias.toNat + i ∧ t.bucketAt symtab i = b ∧
      ∀ j < i, t.bucketAt symtab j ≠ b

instance (t : GnuHashTable) (symtab : List SymtabEntry) (b : ℕ) (word : BitVec 32) :
    Decidable (t.BucketHolds symtab b word) :=
  inferInstanceAs (Decidable (_ ∨ ∃ i, i < t.chain.length ∧ _))

/-- The table of the symbols from `symbias` on. -/
structure WellFormed (t : GnuHashTable) (symtab : List SymtabEntry) : Prop where
  buckets_ne_nil : t.buckets ≠ []
  buckets_lt : t.buckets.length < 2 ^ 32
  symbias_pos : 0 < t.symbias.toNat
  bloom_size : ∃ k < 32, t.bloom.length = 2 ^ k
  bloomShift_lt : t.bloomShift.toNat < 32
  length_symtab : symtab.length = t.symbias.toNat + t.chain.length
  symtab_le : symtab.length ≤ 2 ^ 32
  filters : ∀ i < t.chain.length, t.Filters (t.hashAt symtab i)
  grouped : ∀ i j k, i ≤ j → j ≤ k → k < t.chain.length →
    t.bucketAt symtab i = t.bucketAt symtab k → t.bucketAt symtab j = t.bucketAt symtab k
  bucket : ∀ b word, t.buckets[b]? = some word → t.BucketHolds symtab b word
  chain_eq : ∀ i < t.chain.length,
    t.chain[i]? = some (chainWord (t.hashAt symtab i) (t.Ends symtab i))

/-! ### Words of the table -/

variable {t : GnuHashTable} {symtab : List SymtabEntry} {name : ElfName}

@[simp] theorem length_bloomWords (bloom : List (BitVec 64)) :
    (bloomWords bloom).length = 2 * bloom.length := by
  induction bloom with
  | nil => rfl
  | cons w bloom ih =>
    rw [bloomWords, List.flatMap_cons, List.length_append, ← bloomWords, ih, List.length_cons]
    simp
    omega

variable {i : ℕ}

theorem getElem?_words_bloom (t : GnuHashTable) (hi : i < 2 * t.bloom.length) :
    t.words[4 + i]? = (bloomWords t.bloom)[i]? := by
  rw [words, List.getElem?_append_right (by simp), List.getElem?_append_left (by simpa using hi)]
  simp

theorem getElem?_words_buckets (t : GnuHashTable) {b : ℕ} (hb : b < t.buckets.length) :
    t.words[4 + 2 * t.bloom.length + b]? = t.buckets[b]? := by
  rw [words, List.getElem?_append_right (by simp; omega),
    List.getElem?_append_right (by simp; omega), List.getElem?_append_left (by simp; omega)]
  simp only [List.length_cons, List.length_nil, length_bloomWords]
  congr 1
  omega

theorem length_words (t : GnuHashTable) :
    t.words.length = 4 + 2 * t.bloom.length + t.buckets.length + t.chain.length := by
  simp only [words, List.length_append, List.length_cons, List.length_nil, length_bloomWords]
  omega

theorem drop_words_buckets (t : GnuHashTable) :
    t.words.drop (4 + 2 * t.bloom.length) = t.buckets ++ t.chain := by
  rw [words, ← List.append_assoc]
  refine List.drop_left' ?_
  simp only [List.length_append, List.length_cons, List.length_nil, length_bloomWords]

theorem drop_words_chain (t : GnuHashTable) (i : ℕ) :
    t.words.drop (4 + 2 * t.bloom.length + t.buckets.length + i) = t.chain.drop i := by
  rw [Nat.add_assoc, ← List.drop_drop, drop_words_buckets, ← List.drop_drop, List.drop_left]

theorem chainZero_words (t : GnuHashTable) (i : ℕ) :
    chainZero t.words (4 + 2 * t.bloom.length + t.buckets.length) t.symbias.toNat
      (t.symbias.toNat + i) = t.chain.drop i := by
  rw [chainZero, if_pos (by omega), ← drop_words_chain t i]
  congr 1
  omega

theorem setWidth_append_setWidth (w : BitVec 64) :
    (((w >>> 32).setWidth 32 : BitVec 32) ++ (w.setWidth 32 : BitVec 32) : BitVec 64) = w := by
  apply BitVec.eq_of_getLsbD_eq
  intro i hi
  rw [BitVec.getLsbD_append]
  split_ifs with hlt
  · simp [hlt]
  · rw [BitVec.getLsbD_setWidth, BitVec.getLsbD_ushiftRight, decide_eq_true (by omega),
      Bool.true_and, show 32 + (i - 32) = i by omega]

theorem getElem?_bloomWords (bloom : List (BitVec 64)) (i : ℕ) :
    (bloomWords bloom)[2 * i]? = bloom[i]?.map (·.setWidth 32) ∧
      (bloomWords bloom)[2 * i + 1]? =
        bloom[i]?.map fun (w : BitVec 64) => (w >>> 32).setWidth 32 := by
  induction bloom generalizing i with
  | nil => exact ⟨rfl, rfl⟩
  | cons w bloom ih =>
    cases i with
    | zero => exact ⟨rfl, rfl⟩
    | succ i => exact ih i

variable {word : BitVec 64}

theorem bloomWord_words (h : t.bloom[i]? = some word) :
    bloomWord t.words (4 + 2 * i) = some word := by
  have hi : i < t.bloom.length := (List.getElem?_eq_some_iff.mp h).1
  obtain ⟨hlo, hhi⟩ := getElem?_bloomWords t.bloom i
  rw [bloomWord, getElem?_words_bloom t (by omega), Nat.add_assoc,
    getElem?_words_bloom t (by omega), hlo, hhi, h]
  exact congrArg some (setWidth_append_setWidth word)

/-! ### Lookup -/

theorem filter_eq_zero_iff (word : BitVec 64) (a b : BitVec 32) :
    (word >>> a) &&& (word >>> b) &&& 1 = 0 ↔
      ¬ (word.getLsbD a.toNat = true ∧ word.getLsbD b.toNat = true) := by
  have hbit : (word >>> a &&& word >>> b &&& 1).getLsbD 0 =
      (word.getLsbD a.toNat && word.getLsbD b.toNat) := by
    simp [BitVec.ushiftRight_eq']
  constructor
  · intro hzero hboth
    rw [hzero, hboth.1, hboth.2] at hbit
    cases hbit
  · intro hnot
    apply BitVec.eq_of_getLsbD_eq
    intro i hi
    cases i with
    | zero =>
      rw [hbit, ← Bool.and_eq_true, Bool.not_eq_true] at *
      exact hnot
    | succ i => simp

theorem chainWord_matches (hash : BitVec 32) (mark : Prop) [Decidable mark] :
    (chainWord hash mark ^^^ hash) >>> 1 = 0 := by
  have hmark : ∀ i, (if mark then 1#32 else 0#32).getLsbD (1 + i) = false := by
    intro i
    split_ifs <;> simp
  have hmask : ∀ i, (hash &&& ~~~1#32).getLsbD (1 + i) = hash.getLsbD (1 + i) := by
    intro i
    rcases Nat.lt_or_ge (1 + i) 32 with hlt | hge
    · rw [BitVec.getLsbD_and, BitVec.getLsbD_not, decide_eq_true hlt]
      simp
    · rw [BitVec.getLsbD_of_ge _ _ hge, BitVec.getLsbD_of_ge _ _ hge]
  apply BitVec.eq_of_getLsbD_eq
  intro i hi
  rw [chainWord, BitVec.getLsbD_ushiftRight, BitVec.getLsbD_xor, BitVec.getLsbD_or, hmark, hmask,
    Bool.or_false, Bool.xor_self]
  simp

theorem chainWord_and_one (hash : BitVec 32) (mark : Prop) [Decidable mark] :
    chainWord hash mark &&& 1 ≠ 0 ↔ mark := by
  have hbit : (chainWord hash mark &&& 1).getLsbD 0 = decide mark := by
    rw [chainWord]
    split_ifs with hmark <;> simp [hmark]
  constructor
  · intro hne
    by_contra hmark
    refine hne (BitVec.eq_of_getLsbD_eq fun i hi => ?_)
    cases i with
    | zero => exact hbit.trans (decide_eq_false hmark)
    | succ i => simp
  · intro hmark hzero
    rw [hzero, decide_eq_true hmark] at hbit
    cases hbit

def Accepted (symtab : List SymtabEntry) (name : ElfName) (idx : ℕ) : Bool :=
  symtab[idx]?.any (check · name)

theorem hashAt_of_accepted (h : Accepted symtab name (t.symbias.toNat + i) = true) :
    t.hashAt symtab i = gnuHash name := by
  obtain ⟨sym, hsym, hcheck⟩ := (Option.any_eq_true _ _).mp h
  rw [hashAt, hsym, eq_stName_of_check hcheck]
  rfl

theorem bucketAt_of_accepted (h : Accepted symtab name (t.symbias.toNat + i) = true) :
    t.bucketAt symtab i = (gnuHash name).toNat % t.buckets.length := by
  rw [bucketAt, hashAt_of_accepted h]

theorem not_accepted_of_bucketAt_ne
    (h : t.bucketAt symtab i ≠ (gnuHash name).toNat % t.buckets.length) :
    Accepted symtab name (t.symbias.toNat + i) = false :=
  Bool.eq_false_iff.mpr (mt bucketAt_of_accepted h)

/-- The first symbol from `symbias` on that is accepted. -/
def firstAccepted (t : GnuHashTable) (symtab : List SymtabEntry) (name : ElfName) : Option ℕ :=
  (List.range' t.symbias.toNat t.chain.length).find? (Accepted symtab name)

/-- Symbols before the first of the bucket are not accepted. -/
theorem firstAccepted_eq_find? (hi : i ≤ t.chain.length)
    (h : ∀ j < i, Accepted symtab name (t.symbias.toNat + j) = false) :
    t.firstAccepted symtab name =
      (List.range' (t.symbias.toNat + i) (t.chain.length - i)).find? (Accepted symtab name) := by
  have hbefore : (List.range' t.symbias.toNat i).find? (Accepted symtab name) = none := by
    rw [List.find?_eq_none]
    intro idx hidx
    obtain ⟨j, hj, rfl⟩ := List.mem_range'.mp hidx
    rw [Nat.one_mul, h j hj]
    exact Bool.false_ne_true
  have hsplit := List.range'_append_1 (s := t.symbias.toNat) (m := i) (n := t.chain.length - i)
  rw [Nat.add_sub_cancel' hi] at hsplit
  rw [firstAccepted, ← hsplit, List.find?_append, hbefore]
  rfl

theorem firstAccepted_eq_none
    (h : ∀ i < t.chain.length, Accepted symtab name (t.symbias.toNat + i) = false) :
    t.firstAccepted symtab name = none := by
  rw [firstAccepted_eq_find? le_rfl h, Nat.sub_self]
  rfl

namespace WellFormed

variable (h : t.WellFormed symtab)
include h

theorem drop_chain (hi : i < t.chain.length) :
    t.chain.drop i = chainWord (t.hashAt symtab i) (t.Ends symtab i) :: t.chain.drop (i + 1) := by
  obtain ⟨_, hword⟩ := List.getElem?_eq_some_iff.mp (h.chain_eq i hi)
  rw [List.drop_eq_getElem_cons hi, hword]

/-- After the last symbol of a bucket comes no symbol of the bucket. -/
theorem not_accepted_of_ends {i j : ℕ} (hends : t.Ends symtab i)
    (hbucket : t.bucketAt symtab i = (gnuHash name).toNat % t.buckets.length) (hij : i < j)
    (hj : j < t.chain.length) : Accepted symtab name (t.symbias.toNat + j) = false := by
  refine not_accepted_of_bucketAt_ne fun hbucket' => ?_
  have hsame : t.bucketAt symtab i = t.bucketAt symtab j := hbucket.trans hbucket'.symm
  rcases hends with hlast | hnext
  · omega
  · have hbetween := h.grouped i (i + 1) j (Nat.le_succ i) hij hj hsame
    exact hnext (hbetween.trans hsame.symm)

/-- The walk from a symbol of the bucket on finds the first accepted symbol from there on. -/
theorem gnuHashChain_eq (hi : i < t.chain.length)
    (hbucket : t.bucketAt symtab i = (gnuHash name).toNat % t.buckets.length) :
    gnuHashChain symtab name (gnuHash name) (t.chain.drop i) (t.symbias.toNat + i) =
      some ((List.range' (t.symbias.toNat + i) (t.chain.length - i)).find?
        (Accepted symtab name)) := by
  induction hk : t.chain.length - i generalizing i with
  | zero => omega
  | succ k ih =>
    have hsym : t.symbias.toNat + i < symtab.length := by
      rw [h.length_symtab]
      omega
    have haccepted : (if
        (chainWord (t.hashAt symtab i) (t.Ends symtab i) ^^^ gnuHash name) >>> 1 = 0
        then symtab[t.symbias.toNat + i]?.map (check · name) else some false) =
          some (Accepted symtab name (t.symbias.toNat + i)) := by
      rw [Accepted, List.getElem?_eq_getElem hsym]
      split_ifs with hmatch
      · rfl
      · -- another hash, and so another name
        refine congrArg some (Eq.symm ?_)
        by_contra hcheck
        rw [Bool.not_eq_false] at hcheck
        have hhash : t.hashAt symtab i = gnuHash name :=
          hashAt_of_accepted (by rwa [Accepted, List.getElem?_eq_getElem hsym])
        exact hmatch (hhash ▸ chainWord_matches _ _)
    rw [h.drop_chain hi, gnuHashChain, haccepted, List.range'_succ, List.find?_cons]
    cases Accepted symtab name (t.symbias.toNat + i) with
    | true => rfl
    | false =>
      simp only [chainWord_and_one]
      split_ifs with hends
      · refine congrArg some (Eq.symm (List.find?_eq_none.mpr fun idx hidx => ?_))
        obtain ⟨j, hj, rfl⟩ := List.mem_range'.mp hidx
        have hnot := h.not_accepted_of_ends hends hbucket (show i < i + 1 + j by omega)
          (by omega)
        rw [show t.symbias.toNat + i + 1 + 1 * j = t.symbias.toNat + (i + 1 + j) by omega, hnot]
        exact Bool.false_ne_true
      · rw [Ends, not_or, not_not] at hends
        have hnext : t.bucketAt symtab (i + 1) = _ := hends.2.trans hbucket
        exact ih (by omega) hnext (by omega)

theorem buckets_pos : 0 < t.buckets.length := List.length_pos_of_ne_nil h.buckets_ne_nil

theorem bloom_pos : 0 < t.bloom.length := by
  obtain ⟨k, -, hsize⟩ := h.bloom_size
  exact hsize ▸ Nat.two_pow_pos k

theorem toNat_nbuckets : (BitVec.ofNat 32 t.buckets.length).toNat = t.buckets.length := by
  rw [BitVec.toNat_ofNat, Nat.mod_eq_of_lt h.buckets_lt]

theorem toNat_bloomSize : (BitVec.ofNat 32 t.bloom.length).toNat = t.bloom.length := by
  obtain ⟨k, hk, hsize⟩ := h.bloom_size
  rw [BitVec.toNat_ofNat, Nat.mod_eq_of_lt (hsize ▸ Nat.pow_lt_pow_right (by omega) hk)]

theorem nbuckets_ne_zero : BitVec.ofNat 32 t.buckets.length ≠ 0 := by
  intro hzero
  have hnbuckets := h.toNat_nbuckets
  rw [hzero] at hnbuckets
  exact h.buckets_pos.ne hnbuckets

theorem bloomIndex_eq (hash : BitVec 32) :
    (hash / 64 &&& (BitVec.ofNat 32 t.bloom.length - 1)).toNat =
      hash.toNat / 64 % t.bloom.length := by
  obtain ⟨k, hk, hsize⟩ := h.bloom_size
  have hpow : 2 ^ k < 2 ^ 32 := Nat.pow_lt_pow_right (by omega) hk
  have hpos : 0 < 2 ^ k := Nat.two_pow_pos k
  have hmask : (BitVec.ofNat 32 (2 ^ k) - 1).toNat = 2 ^ k - 1 := by
    rw [BitVec.toNat_sub, BitVec.toNat_ofNat, Nat.mod_eq_of_lt hpow,
      show BitVec.toNat (1 : BitVec 32) = 1 from rfl]
    omega
  rw [BitVec.toNat_and, hsize, hmask, Nat.and_two_pow_sub_one_eq_mod, BitVec.toNat_udiv]
  rfl

theorem gnuHashLookup_words {bucket : BitVec 32}
    (hword : t.bloom[(gnuHash name).toNat / 64 % t.bloom.length]? = some word)
    (hbucket : t.buckets[(gnuHash name).toNat % t.buckets.length]? = some bucket) :
    gnuHashLookup symtab t.words name =
      if (word >>> (gnuHash name &&& 63)) &&&
          (word >>> ((gnuHash name >>> t.bloomShift) &&& 63)) &&& 1 = 0 then some none
      else if bucket = 0 then some none
      else gnuHashChain symtab name (gnuHash name)
        (chainZero t.words (4 + 2 * t.bloom.length + t.buckets.length) t.symbias.toNat bucket.toNat)
        bucket.toNat := by
  have hread := bloomWord_words hword
  have hreadBucket := (t.getElem?_words_buckets (Nat.mod_lt _ h.buckets_pos)).trans hbucket
  rw [← h.bloomIndex_eq] at hread
  rw [← h.toNat_nbuckets, ← BitVec.toNat_umod, ← h.toNat_bloomSize] at hreadBucket
  rw [gnuHashLookup]
  -- the header
  show (if BitVec.ofNat 32 t.buckets.length = 0 then _ else
    (bloomWord t.words (4 + 2 * (gnuHash name / 64 &&&
      (BitVec.ofNat 32 t.bloom.length - 1)).toNat)).bind _) = _
  rw [if_neg h.nbuckets_ne_zero, hread]
  -- the filter
  show (if _ then _ else (t.words[4 + 2 * (BitVec.ofNat 32 t.bloom.length).toNat +
    (gnuHash name % BitVec.ofNat 32 t.buckets.length).toNat]?).bind _) = _
  rw [hreadBucket, h.toNat_bloomSize, h.toNat_nbuckets]
  rfl

/-- A name that the filter rejects is not the name of a symbol. -/
theorem not_accepted_of_filtered
    (hword : t.bloom[(gnuHash name).toNat / 64 % t.bloom.length]? = some word)
    (hfilter : (word >>> (gnuHash name &&& 63)) &&&
      (word >>> ((gnuHash name >>> t.bloomShift) &&& 63)) &&& 1 = 0)
    (hi : i < t.chain.length) : Accepted symtab name (t.symbias.toNat + i) = false := by
  have hmod : ∀ x : BitVec 32, (x &&& 63).toNat = x.toNat % 64 := fun x =>
    (BitVec.toNat_and x 63).trans (Nat.and_two_pow_sub_one_eq_mod x.toNat 6)
  refine Bool.eq_false_iff.mpr fun haccepted => ?_
  obtain ⟨word', hword', hbit, hbit'⟩ := h.filters i hi
  rw [hashAt_of_accepted haccepted] at hword' hbit hbit'
  obtain rfl := Option.some.inj (hword.symm.trans hword')
  apply (filter_eq_zero_iff _ _ _).mp hfilter
  rw [hmod, hmod, BitVec.ushiftRight_eq', BitVec.toNat_ushiftRight]
  exact ⟨hbit, hbit'⟩

/-- The lookup in a table that is well formed returns the first symbol from `symbias` on that is
accepted, if there is one, and reads only words of the table and entries of the symbol table. -/
theorem gnuHashLookup_eq_firstAccepted (name : ElfName) :
    gnuHashLookup symtab t.words name = some (t.firstAccepted symtab name) := by
  have hword := List.getElem?_eq_getElem (Nat.mod_lt ((gnuHash name).toNat / 64) h.bloom_pos)
  obtain ⟨bucket, hbucket⟩ :
      ∃ bucket, t.buckets[(gnuHash name).toNat % t.buckets.length]? = some bucket :=
    ⟨_, List.getElem?_eq_getElem (Nat.mod_lt _ h.buckets_pos)⟩
  rw [h.gnuHashLookup_words hword hbucket]
  split_ifs with hfilter hzero
  · rw [firstAccepted_eq_none fun i hi => h.not_accepted_of_filtered hword hfilter hi]
  · rcases h.bucket _ _ hbucket with ⟨-, hempty⟩ | ⟨i, -, hfirst, -⟩
    · rw [firstAccepted_eq_none fun i hi => not_accepted_of_bucketAt_ne (hempty i hi)]
    · have hsymbias := h.symbias_pos
      rw [hzero] at hfirst
      simp at hfirst
      omega
  · rcases h.bucket _ _ hbucket with ⟨hzero', -⟩ | ⟨i, hi, hfirst, hbucketAt, hbefore⟩
    · exact absurd hzero' hzero
    · rw [hfirst, chainZero_words, h.gnuHashChain_eq hi hbucketAt,
        firstAccepted_eq_find? hi.le fun j hj => not_accepted_of_bucketAt_ne (hbefore j hj)]

end WellFormed

def twoFunctions : List SymtabEntry :=
  [⟨[], 0, 0, 0⟩, ⟨[0x61], 0x12, 1, 0x1000⟩, ⟨[0x62], 0x12, 1, 0x2000⟩]

def twoFunctionsTable : GnuHashTable where
  symbias := 1
  bloomShift := 6
  bloom := [0x10000c0]
  buckets := [1, 2]
  chain := [177671, 177671]

theorem twoFunctionsTable_wellFormed : twoFunctionsTable.WellFormed twoFunctions where
  buckets_ne_nil := List.cons_ne_nil _ _
  buckets_lt := by decide
  symbias_pos := by decide
  bloom_size := ⟨0, by decide, rfl⟩
  bloomShift_lt := by decide
  length_symtab := rfl
  symtab_le := by decide
  filters := by
    intro i hi
    refine ⟨0x10000c0, ?_⟩
    revert i
    decide
  grouped := by
    have hbuckets : ∀ i j k : Fin 2, i ≤ j → j ≤ k →
        twoFunctionsTable.bucketAt twoFunctions i = twoFunctionsTable.bucketAt twoFunctions k →
          twoFunctionsTable.bucketAt twoFunctions j =
            twoFunctionsTable.bucketAt twoFunctions k := by
      decide
    intro i j k hij hjk hk
    have hj : j < 2 := lt_of_le_of_lt hjk hk
    exact hbuckets ⟨i, lt_of_le_of_lt hij hj⟩ ⟨j, hj⟩ ⟨k, hk⟩ hij hjk
  bucket
    | 0, _, hword => Option.some.inj hword ▸ by decide
    | 1, _, hword => Option.some.inj hword ▸ by decide
  chain_eq := by decide

theorem gnuHashLookup_twoFunctions :
    gnuHashLookup twoFunctions twoFunctionsTable.words [0x62] =
      some (twoFunctionsTable.firstAccepted twoFunctions [0x62]) ∧
    twoFunctionsTable.firstAccepted twoFunctions [0x62] = some 2 :=
  ⟨twoFunctionsTable_wellFormed.gnuHashLookup_eq_firstAccepted [0x62], by decide⟩

end GnuHashTable

end Ddprof
