import Ddprof.Elf.GnuHash

/-!
The number of symbols from a GNU hash table.

The table does not say how many symbols there are. `gnu_hash_symbol_count` goes to the bucket whose
symbols are the last ones, and from there to the end of the chain. In a table without a hashed
symbol all buckets are 0, and the walk starts at index 0, which is below `symbias`: it goes through
the buckets and out of the table, or ends at a word of the table that is no word of a symbol.
-/

namespace Ddprof

theorem chainEnd_eq_some {chain : List (BitVec 32)} {idx n : ℕ} (h : chainEnd chain idx = some n) :
    ∃ k word, chain[k]? = some word ∧ word &&& 1 ≠ 0 ∧ n = (idx + k + 1) % 2 ^ 32 := by
  induction chain generalizing idx with
  | nil => cases h
  | cons word chain ih =>
    rw [chainEnd] at h
    split_ifs at h with hmark
    · exact ⟨0, word, rfl, hmark, (Option.some.inj h).symm⟩
    · obtain ⟨k, word', hword', hmark', hn⟩ := ih h
      refine ⟨k + 1, word', hword', hmark', ?_⟩
      rw [hn]
      congr 1
      omega

namespace GnuHashTable

variable {t : GnuHashTable} {symtab : List SymtabEntry}

namespace WellFormed

variable (h : t.WellFormed symtab)
include h

theorem gnuHashSymbolCount_words {idx : ℕ} (hidx : maxElement t.buckets = some idx) :
    gnuHashSymbolCount t.words =
      chainEnd (chainZero t.words (4 + 2 * t.bloom.length + t.buckets.length) t.symbias.toNat idx)
        idx := by
  rw [gnuHashSymbolCount]
  show (if BitVec.ofNat 32 t.buckets.length = 0 then _ else
    if t.words.length < 4 + 2 * (BitVec.ofNat 32 t.bloom.length).toNat +
      (BitVec.ofNat 32 t.buckets.length).toNat then _ else
      (maxElement ((t.words.drop (4 + 2 * (BitVec.ofNat 32 t.bloom.length).toNat)).take
        (BitVec.ofNat 32 t.buckets.length).toNat)).bind _) = _
  rw [if_neg h.nbuckets_ne_zero, h.toNat_nbuckets, h.toNat_bloomSize, if_neg, drop_words_buckets,
    List.take_left, hidx]
  · rfl
  · rw [length_words]
    omega

theorem maxElement_buckets {i : ℕ} (hi : i < t.chain.length)
    (hlast : t.bucketAt symtab i = t.bucketAt symtab (t.chain.length - 1))
    (hfirst : ∀ j < i, t.bucketAt symtab j ≠ t.bucketAt symtab (t.chain.length - 1)) :
    maxElement t.buckets = some (t.symbias.toNat + i) := by
  have hlt : t.bucketAt symtab i < t.buckets.length := Nat.mod_lt _ h.buckets_pos
  rw [maxElement, List.max?_eq_some_iff]
  constructor
  · obtain ⟨word, hword⟩ : ∃ word, t.buckets[t.bucketAt symtab i]? = some word :=
      ⟨_, List.getElem?_eq_getElem hlt⟩
    refine List.mem_map.mpr ⟨word, List.mem_of_getElem? hword, ?_⟩
    rcases h.bucket _ _ hword with ⟨-, hempty⟩ | ⟨i', hi', hword', hbucket, hbefore⟩
    · exact absurd rfl (hempty i hi)
    · -- both are the first of the bucket
      rcases Nat.lt_trichotomy i i' with hlt | rfl | hgt
      · exact absurd rfl (hbefore i hlt)
      · exact hword'
      · exact absurd (hbucket.trans hlast) (hfirst i' hgt)
  · intro n hn
    obtain ⟨word, hword, rfl⟩ := List.mem_map.mp hn
    obtain ⟨b, hb⟩ := List.mem_iff_getElem?.mp hword
    rcases h.bucket _ _ hb with ⟨rfl, -⟩ | ⟨i', hi', hword', hbucket, hbefore⟩
    · exact Nat.zero_le _
    · rw [hword']
      by_contra hgt
      -- a symbol after the first of the last bucket is in this bucket
      have hbetween := h.grouped i i' (t.chain.length - 1) (by omega) (by omega) (by omega) hlast
      exact hbefore i (by omega) (hlast.trans (hbetween.symm.trans hbucket))

/-- The walk through the last bucket ends at the last symbol. -/
theorem chainEnd_lastBucket {i : ℕ} (hi : i < t.chain.length)
    (hlast : t.bucketAt symtab i = t.bucketAt symtab (t.chain.length - 1)) :
    chainEnd (t.chain.drop i) (t.symbias.toNat + i) =
      some ((t.symbias.toNat + t.chain.length) % 2 ^ 32) := by
  induction hk : t.chain.length - 1 - i generalizing i with
  | zero =>
    have hends : t.Ends symtab i := .inl (by omega)
    rw [h.drop_chain hi, chainEnd, if_pos ((chainWord_and_one _ _).mpr hends)]
    congr 2
    omega
  | succ k ih =>
    have hnext : t.bucketAt symtab (i + 1) = t.bucketAt symtab (t.chain.length - 1) :=
      h.grouped i (i + 1) _ (Nat.le_succ i) (by omega) (by omega) hlast
    have hends : ¬ t.Ends symtab i := not_or.mpr
      ⟨by omega, not_not.mpr (hnext.trans hlast.symm)⟩
    rw [h.drop_chain hi, chainEnd, if_neg (mt (chainWord_and_one _ _).mp hends)]
    exact ih (by omega) hnext (by omega)

theorem gnuHashSymbolCount_of_ne_nil (hchain : t.chain ≠ []) :
    gnuHashSymbolCount t.words = some ((t.symbias.toNat + t.chain.length) % 2 ^ 32) := by
  have hlength := List.length_pos_of_ne_nil hchain
  have hlt : t.bucketAt symtab (t.chain.length - 1) < t.buckets.length :=
    Nat.mod_lt _ h.buckets_pos
  rcases h.bucket _ _ (List.getElem?_eq_getElem hlt) with
    ⟨-, hempty⟩ | ⟨i, hi, -, hbucket, hbefore⟩
  · exact absurd rfl (hempty _ (by omega))
  · rw [h.gnuHashSymbolCount_words (h.maxElement_buckets hi hbucket hbefore), chainZero_words]
    exact h.chainEnd_lastBucket hi hbucket

/-- Without a hashed symbol, the walk starts before the words of the symbols. It cannot end at the
last bucket, which is 0, and it has no other way to `symbias`. -/
theorem gnuHashSymbolCount_of_nil (hchain : t.chain = []) :
    gnuHashSymbolCount t.words ≠ some t.symbias.toNat := by
  have hzero : ∀ word ∈ t.buckets, word = 0 := by
    intro word hword
    obtain ⟨b, hb⟩ := List.mem_iff_getElem?.mp hword
    rcases h.bucket _ _ hb with ⟨hzero, -⟩ | ⟨i, hi, -⟩
    · exact hzero
    · rw [hchain] at hi
      cases hi
  have hmax : maxElement t.buckets = some 0 := by
    rw [maxElement, List.max?_eq_some_iff]
    obtain ⟨word, hword⟩ := List.exists_mem_of_ne_nil _ h.buckets_ne_nil
    refine ⟨List.mem_map.mpr ⟨word, hword, by rw [hzero word hword]; rfl⟩, fun n hn => ?_⟩
    obtain ⟨word, hword, rfl⟩ := List.mem_map.mp hn
    rw [hzero word hword]
    rfl
  rw [h.gnuHashSymbolCount_words hmax]
  intro hcount
  obtain ⟨k, word, hword, hmark, hk⟩ := chainEnd_eq_some hcount
  have hsymbias := t.symbias.isLt
  have hpos := h.symbias_pos
  have hbuckets := h.buckets_pos
  have hlength := t.length_words
  rw [chainZero] at hword
  split_ifs at hword with hinside
  · rw [List.getElem?_drop] at hword
    have hin := (List.getElem?_eq_some_iff.mp hword).1
    rw [hchain, List.length_nil] at hlength
    -- the walk has ended at the last word of the table
    have hlast : 4 + 2 * t.bloom.length + t.buckets.length + 0 - t.symbias.toNat + k =
        4 + 2 * t.bloom.length + (t.buckets.length - 1) := by
      omega
    rw [hlast, getElem?_words_buckets t (by omega)] at hword
    rw [hzero word (List.mem_of_getElem? hword)] at hmark
    exact hmark rfl
  · cases hword

/-- The number of symbols is right, from words of the table only, exactly if a symbol is hashed and
the number has 32 bits. -/
theorem gnuHashSymbolCount_iff :
    gnuHashSymbolCount t.words = some (t.symbias.toNat + t.chain.length) ↔
      t.chain ≠ [] ∧ t.symbias.toNat + t.chain.length < 2 ^ 32 := by
  have hle := h.symtab_le
  rw [h.length_symtab] at hle
  rcases eq_or_ne t.chain [] with hchain | hchain
  · refine iff_of_false ?_ fun hcond => hcond.1 hchain
    rw [hchain, List.length_nil, Nat.add_zero]
    exact h.gnuHashSymbolCount_of_nil hchain
  · rw [h.gnuHashSymbolCount_of_ne_nil hchain, Option.some.injEq, and_iff_right hchain]
    omega

end WellFormed

theorem gnuHashSymbolCount_twoFunctions :
    gnuHashSymbolCount twoFunctionsTable.words = some 3 :=
  twoFunctionsTable_wellFormed.gnuHashSymbolCount_iff.mpr ⟨List.cons_ne_nil _ _, by decide⟩

/-- A table without a hashed symbol, as linkers write it. -/
def emptyTable : GnuHashTable where
  symbias := 1
  bloomShift := 0
  bloom := [0]
  buckets := [0]
  chain := []

theorem gnuHashSymbolCount_emptyTable :
    emptyTable.WellFormed [⟨[], 0, 0, 0⟩] ∧ gnuHashSymbolCount emptyTable.words = none := by
  refine ⟨?_, by decide⟩
  constructor
  case bloom_size => exact ⟨0, by decide, rfl⟩
  case bucket =>
    intro b word hword
    match b with
    | 0 => exact .inl ⟨(Option.some.inj hword).symm, nofun⟩
  case filters => exact fun i hi => absurd hi (Nat.not_lt_zero i)
  case grouped => exact fun i j k _ _ hk => absurd hk (Nat.not_lt_zero k)
  all_goals decide

end GnuHashTable

end Ddprof
