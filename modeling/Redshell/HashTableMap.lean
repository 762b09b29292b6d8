import Redshell.HashTable

/-! The representation invariant of the table, and its operations on the entries it holds. -/
namespace Redshell

variable {K V : Type}

namespace HashTable

/-- Every entry stands in its key's chain, no key twice, and the count is exact. -/
structure WellFormed (t : HashTable K V) : Prop where
  length_table : t.table.length = t.tableSize
  tableSize_pos : 0 < t.tableSize
  placed : Chain.Placed t.index t.table
  nodup : (Chain.keys t.contents).Nodup
  count : t.entries = t.contents.length

variable {t u : HashTable K V} {k : K} {v : V}

theorem WellFormed.index_lt (h : t.WellFormed) (k : K) : t.index k < t.table.length := by
  rw [h.length_table]
  exact Nat.mod_lt _ h.tableSize_pos

end HashTable

open HashTable

variable {t u : HashTable K V} {k k' : K} {v w : V} {e : HashTableEntry K V}

theorem hashTableAllocateTable_spec (h : hashTableAllocateTable t = some u) :
    0 < u.tableSize ∧ u.table = List.replicate u.tableSize [] ∧
      u.hashFunc = t.hashFunc ∧ u.entries = t.entries ∧ u.primeIndex = t.primeIndex := by
  unfold hashTableAllocateTable at h
  split at h
  · rename_i hpos
    cases h
    exact ⟨by simpa using hpos, rfl, rfl, rfl, rfl⟩
  · cases h

theorem hashTableAllocateTable_prime {n : Nat} (hn : hashTablePrimes[t.primeIndex]? = some n) :
    ∃ u, hashTableAllocateTable t = some u ∧ u.tableSize = n := by
  have hpos : 0 < n := by
    have hall : ∀ p ∈ hashTablePrimes, 0 < p := by decide
    exact hall n (List.mem_of_getElem? hn)
  have hsize : newTableSize t = n := by simp [newTableSize, hn]
  refine ⟨{ t with tableSize := n, table := List.replicate n [] }, ?_, rfl⟩
  simp [hashTableAllocateTable, hsize, hpos]

theorem wellFormed_empty (ht : t.table = List.replicate t.tableSize []) (hs : 0 < t.tableSize)
    (he : t.entries = 0) : t.WellFormed where
  length_table := by simp [ht]
  tableSize_pos := hs
  placed := by
    rw [ht]
    exact Chain.placed_replicate _ _
  nodup := by simp [contents, ht, Chain.keys]
  count := by simp [contents, ht, he]

/-! Growth: linking every entry into a larger table. -/

/-- What linking preserves: the shape of the new table. -/
structure Linkable (t : HashTable K V) : Prop where
  length_table : t.table.length = t.tableSize
  tableSize_pos : 0 < t.tableSize
  placed : Chain.Placed t.index t.table

theorem relink_spec (h : Linkable t) (e : HashTableEntry K V) :
    Linkable (relink t e) ∧ (relink t e).contents.Perm (e :: t.contents) := by
  have hi : t.index e.key < t.table.length := by
    rw [h.length_table]
    exact Nat.mod_lt _ h.tableSize_pos
  refine ⟨⟨?_, h.tableSize_pos, ?_⟩, ?_⟩
  · simpa [relink, setChain] using h.length_table
  · apply Chain.placed_set h.placed
    intro x hx
    rcases List.mem_cons.mp hx with rfl | hx
    · rfl
    · exact h.placed _ x hx
  · have hp := Chain.flatten_perm hi
    exact (Chain.flatten_set_perm hi).trans (hp.symm.cons e)

theorem foldl_relink_spec (c : List (HashTableEntry K V)) (h : Linkable t) :
    Linkable (c.foldl relink t) ∧ (c.foldl relink t).contents.Perm (c ++ t.contents) ∧
      (c.foldl relink t).tableSize = t.tableSize ∧ (c.foldl relink t).entries = t.entries ∧
      (c.foldl relink t).primeIndex = t.primeIndex := by
  induction c generalizing t with
  | nil => exact ⟨h, .refl _, rfl, rfl, rfl⟩
  | cons e c ih =>
    obtain ⟨hl, hp⟩ := relink_spec h e
    obtain ⟨hl', hp', hs, hn, hi⟩ := ih hl
    refine ⟨hl', ?_, hs, hn, hi⟩
    have hc : (c ++ (relink t e).contents).Perm (c ++ e :: t.contents) := hp.append_left c
    exact (hp'.trans hc).trans List.perm_middle

theorem hashTableEnlarge_spec (h : t.WellFormed) (hu : hashTableEnlarge t = some u) :
    u.WellFormed ∧ u.contents.Perm t.contents ∧ u.entries = t.entries ∧
      u.primeIndex = t.primeIndex + 1 := by
  obtain ⟨new, hnew, rfl⟩ := Option.map_eq_some_iff.mp hu
  obtain ⟨hpos, hrow, hhash, hentries, hprime⟩ := hashTableAllocateTable_spec hnew
  have hlink : Linkable new := by
    refine ⟨by simp [hrow], hpos, ?_⟩
    rw [hrow]
    exact Chain.placed_replicate _ _
  have hempty : new.contents = [] := by simp [contents, hrow]
  rw [← List.foldl_flatten]
  obtain ⟨hl, hp, hs, he, hi⟩ := foldl_relink_spec t.contents hlink
  rw [hempty, List.append_nil] at hp
  refine ⟨⟨hl.length_table, hl.tableSize_pos, hl.placed, ?_, ?_⟩, hp, ?_, ?_⟩
  · exact (hp.map Chain.Entry.key).nodup_iff.mpr h.nodup
  · change (t.contents.foldl relink new).entries =
      ((t.contents.foldl relink new).contents.length : Int)
    rw [he, hentries, hp.length_eq]
    exact h.count
  · exact he.trans hentries
  · exact hi.trans hprime

/-! Insertion, lookup and removal. -/

theorem mem_keys_chain_iff (h : t.WellFormed) :
    k ∈ Chain.keys (t.chain (t.index k)) ↔ k ∈ Chain.keys t.contents := by
  constructor
  · intro hm
    obtain ⟨e, he, rfl⟩ := List.mem_map.mp hm
    exact List.mem_map.mpr ⟨e, Chain.getD_subset (h.index_lt _) he, rfl⟩
  · intro hm
    obtain ⟨e, he, rfl⟩ := List.mem_map.mp hm
    exact List.mem_map.mpr ⟨e, Chain.placed_mem h.placed he, rfl⟩

variable [DecidableEq K]

theorem hashTableLookup_eq_some_iff (h : t.WellFormed) :
    hashTableLookup t k = some v ↔ (⟨k, v⟩ : HashTableEntry K V) ∈ t.contents :=
  Chain.find_placed h.placed h.nodup (h.index_lt k)

theorem hashTableLookup_eq_none_iff (h : t.WellFormed) :
    hashTableLookup t k = none ↔ k ∉ Chain.keys t.contents := by
  constructor
  · intro hn hk
    obtain ⟨e, he, rfl⟩ := List.mem_map.mp hk
    rw [(hashTableLookup_eq_some_iff h).mpr he] at hn
    cases hn
  · intro hk
    cases hl : hashTableLookup t k with
    | none => rfl
    | some v =>
      have hm := (hashTableLookup_eq_some_iff h).mp hl
      exact absurd (List.mem_map.mpr ⟨_, hm, rfl⟩) hk

/-- The lookups depend on the entries only, not on how they are chained. -/
theorem hashTableLookup_congr (ht : t.WellFormed) (hu : u.WellFormed)
    (hp : t.contents.Perm u.contents) : hashTableLookup t k = hashTableLookup u k := by
  apply Option.ext
  intro v
  rw [hashTableLookup_eq_some_iff ht, hashTableLookup_eq_some_iff hu, hp.mem_iff]

theorem nodup_overwritten {c : List (HashTableEntry K V)} (hn : (Chain.keys c).Nodup) :
    (Chain.keys (⟨k, v⟩ :: Chain.others k c)).Nodup :=
  List.nodup_cons.mpr ⟨Chain.not_mem_keys_others, Chain.nodup_others hn⟩

/-- Exchanging the key's chain for one that holds the key once more keeps the shape. -/
theorem setChain_spec {c : List (HashTableEntry K V)} (h : t.WellFormed)
    (hc : c.Perm (⟨k, v⟩ :: Chain.others k (t.chain (t.index k)))) :
    Linkable (t.setChain (t.index k) c) ∧ (Chain.keys (t.setChain (t.index k) c).contents).Nodup ∧
      (t.setChain (t.index k) c).contents.Perm (⟨k, v⟩ :: Chain.others k t.contents) := by
  have hp := Chain.set_perm_of_overwritten h.placed (h.index_lt k) hc
  refine ⟨⟨?_, h.tableSize_pos, ?_⟩, ?_, hp⟩
  · simpa [setChain] using h.length_table
  · apply Chain.placed_set h.placed
    intro e he
    rcases List.mem_cons.mp (hc.mem_iff.mp he) with rfl | he
    · rfl
    · exact h.placed _ e (Chain.mem_others.mp he).1
  · exact (hp.map Chain.Entry.key).nodup_iff.mpr (nodup_overwritten h.nodup)

theorem hashTableInsertEntry_overwritten {c : List (HashTableEntry K V)}
    (h : Chain.overwrite k v (t.chain (t.index k)) = some c) :
    hashTableInsertEntry t k v = t.setChain (t.index k) c := by
  simp [hashTableInsertEntry, h]

theorem hashTableInsertEntry_linked (h : Chain.overwrite k v (t.chain (t.index k)) = none) :
    hashTableInsertEntry t k v =
      { t.setChain (t.index k) (⟨k, v⟩ :: t.chain (t.index k)) with
        entries := t.entries + 1 } := by
  simp [hashTableInsertEntry, h]

theorem hashTableInsertEntry_spec (h : t.WellFormed) (k : K) (v : V) :
    (hashTableInsertEntry t k v).WellFormed ∧
      (hashTableInsertEntry t k v).contents.Perm (⟨k, v⟩ :: Chain.others k t.contents) := by
  have hnc := Chain.nodup_chain h.nodup (h.index_lt k)
  cases ho : Chain.overwrite k v (t.chain (t.index k)) with
  | some c =>
    rw [hashTableInsertEntry_overwritten ho]
    obtain ⟨hl, hn, hp⟩ := setChain_spec h (Chain.overwrite_perm hnc ho)
    refine ⟨⟨hl.length_table, hl.tableSize_pos, hl.placed, hn, ?_⟩, hp⟩
    have hk : k ∈ Chain.keys t.contents := by
      by_contra hk
      rw [← mem_keys_chain_iff h] at hk
      rw [Chain.overwrite_eq_none_iff.mpr hk] at ho
      cases ho
    rw [hp.length_eq, List.length_cons, Chain.length_others h.nodup hk]
    exact h.count
  | none =>
    rw [hashTableInsertEntry_linked ho]
    have hk := Chain.overwrite_eq_none_iff.mp ho
    obtain ⟨hl, hn, hp⟩ := setChain_spec (v := v) h
      (.of_eq (by rw [Chain.others_of_not_mem hk]) :
        (⟨k, v⟩ :: t.chain (t.index k)).Perm (⟨k, v⟩ :: Chain.others k (t.chain (t.index k))))
    refine ⟨⟨hl.length_table, hl.tableSize_pos, hl.placed, hn, ?_⟩, hp⟩
    rw [mem_keys_chain_iff h] at hk
    have hlen := hp.length_eq
    rw [List.length_cons, Chain.others_of_not_mem hk] at hlen
    have hcount := h.count
    change t.entries + 1 = ((t.setChain _ _).contents.length : Int)
    omega

theorem hashTableInsertEntry_frame (t : HashTable K V) (k : K) (v : V) :
    (hashTableInsertEntry t k v).tableSize = t.tableSize ∧
      (hashTableInsertEntry t k v).primeIndex = t.primeIndex := by
  cases ho : Chain.overwrite k v (t.chain (t.index k)) with
  | some c =>
    rw [hashTableInsertEntry_overwritten ho]
    exact ⟨rfl, rfl⟩
  | none =>
    rw [hashTableInsertEntry_linked ho]
    exact ⟨rfl, rfl⟩

/-- An insertion puts exactly the new entry in the place of its key, or leaves the table. -/
theorem hashTableInsert_cases (h : t.WellFormed) (k : K) (v : V) :
    ((hashTableInsert t k v).2 = false ∧ (hashTableInsert t k v).1 = t) ∨
      ((hashTableInsert t k v).2 = true ∧ (hashTableInsert t k v).1.WellFormed ∧
        (hashTableInsert t k v).1.contents.Perm (⟨k, v⟩ :: Chain.others k t.contents)) := by
  unfold hashTableInsert
  split
  · cases he : hashTableEnlarge t with
    | none => exact Or.inl ⟨rfl, rfl⟩
    | some u =>
      obtain ⟨hu, hp, _, _⟩ := hashTableEnlarge_spec h he
      obtain ⟨hw, hc⟩ := hashTableInsertEntry_spec hu k v
      exact Or.inr ⟨rfl, hw, hc.trans ((hp.filter _).cons _)⟩
  · obtain ⟨hw, hc⟩ := hashTableInsertEntry_spec h k v
    exact Or.inr ⟨rfl, hw, hc⟩

theorem hashTableInsert_wellFormed (h : t.WellFormed) (k : K) (v : V) :
    (hashTableInsert t k v).1.WellFormed := by
  rcases hashTableInsert_cases h k v with ⟨_, he⟩ | ⟨_, hw, _⟩
  · rwa [he]
  · exact hw

theorem hashTableRemove_found {c : List (HashTableEntry K V)}
    (h : Chain.unlink k (t.chain (t.index k)) = some c) :
    (hashTableRemove t k).1 = { t.setChain (t.index k) c with entries := t.entries - 1 } := by
  simp [hashTableRemove, h]

theorem hashTableRemove_missing (h : Chain.unlink k (t.chain (t.index k)) = none) :
    (hashTableRemove t k).1 = t := by
  simp [hashTableRemove, h]

theorem hashTableRemove_spec (h : t.WellFormed) (k : K) :
    (hashTableRemove t k).1.WellFormed ∧
      (hashTableRemove t k).1.contents.Perm (Chain.others k t.contents) := by
  have hnc := Chain.nodup_chain h.nodup (h.index_lt k)
  cases ho : Chain.unlink k (t.chain (t.index k)) with
  | some c =>
    rw [hashTableRemove_found ho]
    obtain rfl := Chain.unlink_eq_others hnc ho
    have hp := Chain.set_perm_of_unlinked h.placed (h.index_lt k)
    refine ⟨⟨?_, h.tableSize_pos, ?_, ?_, ?_⟩, hp⟩
    · simpa [setChain] using h.length_table
    · apply Chain.placed_set h.placed
      intro e he
      exact h.placed _ e (Chain.mem_others.mp he).1
    · exact (hp.map Chain.Entry.key).nodup_iff.mpr (Chain.nodup_others h.nodup)
    · have hk : k ∈ Chain.keys t.contents := by
        by_contra hk
        rw [← mem_keys_chain_iff h] at hk
        rw [Chain.unlink_eq_none_iff.mpr hk] at ho
        cases ho
      have hcount : t.entries - 1 = (Chain.others k t.contents).length := by
        have hlen := Chain.length_others h.nodup hk
        rw [h.count]
        omega
      change t.entries - 1 = (((t.table.set _ _).flatten.length : Nat) : Int)
      rw [hp.length_eq]
      exact hcount
  | none =>
    rw [hashTableRemove_missing ho]
    have hk := Chain.unlink_eq_none_iff.mp ho
    rw [mem_keys_chain_iff h] at hk
    exact ⟨h, .of_eq (Chain.others_of_not_mem hk).symm⟩

theorem hashTableLookup_insert (h : t.WellFormed) (hk : (hashTableInsert t k v).2 = true) :
    hashTableLookup (hashTableInsert t k v).1 k' =
      if k' = k then some v else hashTableLookup t k' := by
  obtain ⟨hf, _⟩ | ⟨_, hw, hp⟩ := hashTableInsert_cases h k v
  · rw [hf] at hk
    cases hk
  · apply Option.ext
    intro w
    rw [hashTableLookup_eq_some_iff hw, hp.mem_iff, List.mem_cons, Chain.mem_others]
    split
    · rename_i he
      subst he
      simp [eq_comm]
    · rename_i he
      rw [hashTableLookup_eq_some_iff h]
      simp [he]

theorem hashTableLookup_remove (h : t.WellFormed) :
    hashTableLookup (hashTableRemove t k).1 k' =
      if k' = k then none else hashTableLookup t k' := by
  obtain ⟨hw, hp⟩ := hashTableRemove_spec h k
  apply Option.ext
  intro w
  rw [hashTableLookup_eq_some_iff hw, hp.mem_iff, Chain.mem_others]
  split
  · rename_i he
    simp [he]
  · rename_i he
    rw [hashTableLookup_eq_some_iff h]
    simp [he]

/-! Sizes: below the largest prime's load no growth fails. -/

/-- The table has the size of the prime its index names. -/
def HashTable.PrimeSized (t : HashTable K V) : Prop :=
  hashTablePrimes[t.primeIndex]? = some t.tableSize

theorem int32_of_lt {n : Int} (h0 : 0 ≤ n) (h : n < 2 ^ 31) : int32 n = n := by
  unfold int32
  exact Int.bmod_eq_of_le_mul_two (by omega) (by omega)

/-- A prime of the list that is not the last one has a successor. -/
theorem hashTablePrimes_succ {i n : Nat} (h : hashTablePrimes[i]? = some n)
    (hn : n < 1610612741) : ∃ m, hashTablePrimes[i + 1]? = some m := by
  have hi : i < hashTablePrimes.length := (List.getElem?_eq_some_iff.mp h).1
  have hlast : i ≠ 23 := by
    rintro rfl
    simp [hashTablePrimes] at h
    omega
  have hlen : hashTablePrimes.length = 24 := rfl
  exact ⟨_, List.getElem?_eq_getElem (by omega)⟩

omit [DecidableEq K] in
theorem hashTableEnlarge_primeSized (h : t.PrimeSized) (hn : t.tableSize < 1610612741) :
    ∃ u, hashTableEnlarge t = some u ∧ u.PrimeSized := by
  obtain ⟨m, hm⟩ := hashTablePrimes_succ h hn
  obtain ⟨new, hnew, hsize⟩ :=
    hashTableAllocateTable_prime (t := { t with primeIndex := t.primeIndex + 1 }) hm
  obtain ⟨hpos, hrow, _, _, hprime⟩ := hashTableAllocateTable_spec hnew
  have hlink : Linkable new := by
    refine ⟨by simp [hrow], hpos, ?_⟩
    rw [hrow]
    exact Chain.placed_replicate _ _
  obtain ⟨_, _, hs, _, hi⟩ := foldl_relink_spec t.contents hlink
  refine ⟨t.contents.foldl relink new, ?_, ?_⟩
  · simp [hashTableEnlarge, hnew, contents, List.foldl_flatten]
  · rw [PrimeSized, hs, hi, hsize, hprime]
    exact hm

theorem hashTableInsertEntry_primeSized (h : t.PrimeSized) :
    (hashTableInsertEntry t k v).PrimeSized := by
  obtain ⟨hs, hi⟩ := hashTableInsertEntry_frame t k v
  rwa [PrimeSized, hs, hi]

/-- Below 500 million entries no `int` product overflows and an insertion never fails. -/
theorem hashTableInsert_primeSized (h : t.PrimeSized) (h0 : 0 ≤ t.entries)
    (hn : t.entries < 500000000) :
    (hashTableInsert t k v).2 = true ∧ (hashTableInsert t k v).1.PrimeSized := by
  have hint : int32 (t.entries * 3) = t.entries * 3 := int32_of_lt (by omega) (by omega)
  unfold hashTableInsert
  split
  · rename_i hload
    have hsmall : t.tableSize < 1610612741 := by
      by_contra hge
      rw [hint, Int.tdiv_eq_zero_of_lt (by omega) (by omega)] at hload
      exact absurd hload (by decide)
    obtain ⟨u, hu, hp⟩ := hashTableEnlarge_primeSized h hsmall
    simp only [hu]
    exact ⟨trivial, hashTableInsertEntry_primeSized hp⟩
  · exact ⟨rfl, hashTableInsertEntry_primeSized h⟩

theorem hashTableRemove_primeSized (h : t.PrimeSized) : (hashTableRemove t k).1.PrimeSized := by
  cases ho : Chain.unlink k (t.chain (t.index k)) with
  | some c => rwa [hashTableRemove_found ho]
  | none => rwa [hashTableRemove_missing ho]

theorem entries_insert_le (h : t.WellFormed) (v : V) :
    (hashTableInsert t k v).1.entries ≤ t.entries + 1 := by
  rcases hashTableInsert_cases h k v with ⟨_, he⟩ | ⟨_, hw, hp⟩
  · rw [he]
    omega
  · have hlen := List.length_filter_le (fun e => decide (e.key ≠ k)) t.contents
    rw [hw.count, h.count, hp.length_eq, List.length_cons]
    change ((Chain.others k t.contents).length + 1 : Int) ≤ _
    exact_mod_cast Nat.succ_le_succ hlen

theorem entries_remove_le (h : t.WellFormed) :
    (hashTableRemove t k).1.entries ≤ t.entries := by
  obtain ⟨hw, hp⟩ := hashTableRemove_spec h k
  have hlen := List.length_filter_le (fun e => decide (e.key ≠ k)) t.contents
  rw [hw.count, h.count, hp.length_eq]
  exact_mod_cast hlen

end Redshell
