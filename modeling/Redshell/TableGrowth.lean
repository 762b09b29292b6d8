import Redshell.HashTableMap

/-! How much work the enlargements of a hash table are in a run, and how full the table gets. -/
namespace Redshell

open HashTable

variable {K V : Type}

/-- The turns of the two loops of `hash_table_enlarge`. -/
def hashTableEnlargeTurns (t : HashTable K V) : Nat :=
  t.table.foldl (fun turns rover => rover.foldl (fun turns _ => turns + 1) (turns + 1)) 0

/-- Those of an insertion; `calloc` comes before them. -/
def hashTableInsertTurns (t : HashTable K V) : Nat :=
  if 0 < (int32 (t.entries * 3)).tdiv t.tableSize then
    match hashTableEnlarge t with
    | none => 0
    | some _ => hashTableEnlargeTurns t
  else 0

inductive TableCall (K V : Type)
  | insert (key : K) (value : V)
  | remove (key : K)

/-- The insertions of a run. -/
def insertions : List (TableCall K V) → Nat
  | [] => 0
  | .insert _ _ :: calls => insertions calls + 1
  | .remove _ :: calls => insertions calls

variable [DecidableEq K]

/-- The table after a run, and the turns of all its enlargements. -/
def runTable (t : HashTable K V) : List (TableCall K V) → HashTable K V × Nat
  | [] => (t, 0)
  | .insert key value :: calls =>
    let rest := runTable (hashTableInsert t key value).1 calls
    (rest.1, hashTableInsertTurns t + rest.2)
  | .remove key :: calls => runTable (hashTableRemove t key).1 calls

/-- The turns of the enlargements up to a prime, when each comes as soon as a third is full. -/
def turnsUpTo : Nat → Nat
  | 0 => 0
  | i + 1 => turnsUpTo i + (hashTablePrimes.getD i 0 + (hashTablePrimes.getD i 0 + 2) / 3)

/-- A table after so many insertions and turns. -/
structure Grown (t : HashTable K V) (inserted turns : Nat) : Prop where
  wellFormed : t.WellFormed
  primeSized : t.PrimeSized
  entries_le : t.entries ≤ inserted
  load : 3 * t.entries < t.tableSize + 3
  turns_eq : turns = turnsUpTo t.primeIndex
  needed : ∀ i, t.primeIndex = i + 1 → hashTablePrimes.getD i 0 ≤ 3 * inserted

variable {t : HashTable K V} {inserted turns : Nat} {k : K}

omit [DecidableEq K] in
theorem hashTableEnlargeTurns_eq (t : HashTable K V) :
    hashTableEnlargeTurns t = t.table.length + t.contents.length := by
  have hrows : ∀ (rows : List (List (HashTableEntry K V))) (n : Nat),
      rows.foldl (fun turns rover => rover.foldl (fun turns _ => turns + 1) (turns + 1)) n =
        n + (rows.length + rows.flatten.length) := by
    intro rows
    induction rows with
    | nil => intro n; rfl
    | cons row rows ih =>
      intro n
      rw [List.foldl_cons, ih, List.foldl_add_const]
      simp only [List.length_cons, List.flatten_cons, List.length_append]
      omega
  rw [hashTableEnlargeTurns, hrows, Nat.zero_add]
  rfl

theorem hashTableRemove_frame (t : HashTable K V) (k : K) :
    (hashTableRemove t k).1.tableSize = t.tableSize ∧
      (hashTableRemove t k).1.primeIndex = t.primeIndex := by
  cases ho : Chain.unlink k (t.chain (t.index k)) with
  | some c =>
    rw [hashTableRemove_found ho]
    exact ⟨rfl, rfl⟩
  | none =>
    rw [hashTableRemove_missing ho]
    exact ⟨rfl, rfl⟩

/-- The next prime is at least three larger. -/
theorem hashTablePrimes_grow {i n m : Nat} (hn : hashTablePrimes[i]? = some n)
    (hm : hashTablePrimes[i + 1]? = some m) : n + 3 ≤ m := by
  have hall : ∀ i < 24, ∀ n ∈ hashTablePrimes[i]?, ∀ m ∈ hashTablePrimes[i + 1]?, n + 3 ≤ m := by
    decide
  exact hall i (List.getElem?_eq_some_iff.mp hn).1 n hn m hm

theorem turnsUpTo_le {i n : Nat} (hi : i < 23) (hn : hashTablePrimes.getD i 0 ≤ 3 * n) :
    turnsUpTo (i + 1) ≤ 8 * (n + 1) := by
  have hall : ∀ i < 23, turnsUpTo (i + 1) ≤ 8 * ((hashTablePrimes.getD i 0 + 2) / 3 + 1) := by
    decide
  have h := hall i hi
  omega

theorem tableSize_le {i n m : Nat} (hm : hashTablePrimes[i + 1]? = some m)
    (hn : hashTablePrimes.getD i 0 ≤ 3 * n) : m ≤ 6 * n + 193 := by
  have hall : ∀ i < 24, ∀ m ∈ hashTablePrimes[i + 1]?,
      m ≤ 6 * ((hashTablePrimes.getD i 0 + 2) / 3) + 193 := by decide
  have hi := (List.getElem?_eq_some_iff.mp hm).1
  have h := hall i ((Nat.lt_succ_self i).trans hi) m hm
  omega

namespace Grown

omit [DecidableEq K] in
theorem entries_nonneg (h : Grown t inserted turns) : 0 ≤ t.entries := by
  rw [h.wellFormed.count]
  exact Int.natCast_nonneg _

omit [DecidableEq K] in
/-- The test of `hash_table_insert`: whether a third of the table is full. -/
theorem full_iff (h : Grown t inserted turns) (hn : inserted < 500000000) :
    0 < (int32 (t.entries * 3)).tdiv t.tableSize ↔ (t.tableSize : Int) ≤ 3 * t.entries := by
  have h0 := h.entries_nonneg
  have hle := h.entries_le
  have hsize : (0 : Int) < t.tableSize := Int.natCast_pos.mpr h.wellFormed.tableSize_pos
  rw [int32_of_lt (by omega) (by omega), Int.tdiv_eq_ediv_of_nonneg (by omega),
    Int.mul_comm t.entries, ← Int.add_one_le_iff, Int.le_ediv_iff_mul_le hsize, Int.zero_add,
    Int.one_mul]

omit [DecidableEq K] in
/-- An enlargement from the prime of the index takes the turns that belong to it. -/
theorem enlargeTurns_eq (h : Grown t inserted turns) (hfull : (t.tableSize : Int) ≤ 3 * t.entries) :
    turns + hashTableEnlargeTurns t = turnsUpTo (t.primeIndex + 1) := by
  have hcount := h.wellFormed.count
  have hload := h.load
  have hprime : hashTablePrimes.getD t.primeIndex 0 = t.tableSize := by
    rw [List.getD_eq_getElem?_getD, h.primeSized, Option.getD_some]
  rw [turnsUpTo, h.turns_eq, hashTableEnlargeTurns_eq, h.wellFormed.length_table, hprime]
  omega

/-- A step of the growth: the table, enlarged or not, takes one entry more. -/
theorem insert (h : Grown t inserted turns) (hn : inserted < 500000000) (k : K) (v : V) :
    Grown (hashTableInsert t k v).1 (inserted + 1) (turns + hashTableInsertTurns t) := by
  have hle := h.entries_le
  have hsized := (hashTableInsert_primeSized (k := k) (v := v) h.primeSized h.entries_nonneg
    (by omega)).2
  have hw := hashTableInsert_wellFormed h.wellFormed k v
  have hentries := entries_insert_le (k := k) h.wellFormed v
  have hfull := h.full_iff hn
  rw [hashTableInsertTurns]
  by_cases hthird : (t.tableSize : Int) ≤ 3 * t.entries
  · rw [if_pos (hfull.mpr hthird)]
    have hsmall : t.tableSize < 1610612741 := by omega
    obtain ⟨u, hu, husized⟩ := hashTableEnlarge_primeSized h.primeSized hsmall
    have hindex := (hashTableEnlarge_spec h.wellFormed hu).2.2.2
    have hrun : hashTableInsert t k v = (hashTableInsertEntry u k v, true) := by
      rw [hashTableInsert, if_pos (hfull.mpr hthird), hu]
    obtain ⟨hsize, hprime⟩ := hashTableInsertEntry_frame u k v
    rw [HashTable.PrimeSized, hindex] at husized
    have hgrow := hashTablePrimes_grow h.primeSized husized
    have hload := h.load
    rw [hrun] at hentries hsized hw ⊢
    rw [hu]
    dsimp only at hentries ⊢
    refine ⟨hw, hsized, ?_, ?_, ?_, fun i hi => ?_⟩
    · push_cast
      omega
    · rw [hsize]
      omega
    · rw [hprime, hindex]
      exact h.enlargeTurns_eq hthird
    · rw [hprime, hindex] at hi
      obtain rfl := Nat.succ.inj hi
      rw [List.getD_eq_getElem?_getD, h.primeSized, Option.getD_some]
      omega
  · rw [if_neg fun hpos => hthird (hfull.mp hpos)]
    have hrun : hashTableInsert t k v = (hashTableInsertEntry t k v, true) :=
      if_neg fun hpos => hthird (hfull.mp hpos)
    obtain ⟨hsize, hprime⟩ := hashTableInsertEntry_frame t k v
    rw [hrun] at hentries hsized hw ⊢
    dsimp only at hentries ⊢
    refine ⟨hw, hsized, ?_, ?_, ?_, fun i hi => ?_⟩
    · push_cast
      omega
    · rw [hsize]
      omega
    · rw [hprime]
      exact h.turns_eq
    · rw [hprime] at hi
      exact (h.needed i hi).trans (by omega)

theorem remove (h : Grown t inserted turns) (k : K) :
    Grown (hashTableRemove t k).1 inserted turns := by
  have hentries := entries_remove_le (k := k) h.wellFormed
  have hle := h.entries_le
  have hload := h.load
  have hw := (hashTableRemove_spec h.wellFormed k).1
  have hsized := hashTableRemove_primeSized (k := k) h.primeSized
  obtain ⟨hsize, hprime⟩ := hashTableRemove_frame t k
  refine ⟨hw, hsized, by omega, ?_, ?_, fun i hi => ?_⟩
  · rw [hsize]
    omega
  · rw [hprime]
    exact h.turns_eq
  · rw [hprime] at hi
    exact h.needed i hi

theorem run (calls : List (TableCall K V)) (h : Grown t inserted turns)
    (hn : inserted + insertions calls ≤ 500000000) :
    Grown (runTable t calls).1 (inserted + insertions calls) (turns + (runTable t calls).2) := by
  induction calls generalizing t inserted turns with
  | nil => exact h
  | cons call calls ih =>
    cases call with
    | insert k v =>
      rw [insertions] at hn ⊢
      have hrest := ih (h.insert (by omega) k v) (by omega)
      rw [runTable]
      rwa [Nat.add_right_comm, Nat.add_assoc turns] at hrest
    | remove k => exact ih (h.remove k) hn

omit [DecidableEq K] in
theorem turns_le (h : Grown t inserted turns) : turns ≤ 8 * (inserted + 1) := by
  have hlast := (List.getElem?_eq_some_iff.mp h.primeSized).1
  cases hindex : t.primeIndex with
  | zero =>
    rw [h.turns_eq, hindex]
    exact Nat.zero_le _
  | succ i =>
    rw [hindex] at hlast
    rw [h.turns_eq, hindex]
    exact turnsUpTo_le (Nat.lt_of_succ_lt_succ hlast) (h.needed i hindex)

omit [DecidableEq K] in
theorem tableSize_le (h : Grown t inserted turns) : t.tableSize ≤ 6 * inserted + 193 := by
  have hsized := h.primeSized
  rw [HashTable.PrimeSized] at hsized
  cases hindex : t.primeIndex with
  | zero =>
    rw [hindex] at hsized
    have hfirst : 193 = t.tableSize := Option.some.inj hsized
    omega
  | succ i =>
    rw [hindex] at hsized
    exact Redshell.tableSize_le hsized (h.needed i hindex)

end Grown

omit [DecidableEq K] in
theorem grown_new (hashFunc : K → UInt64) :
    ∃ t : HashTable K V, hashTableNew hashFunc = some t ∧ Grown t 0 0 := by
  let t₀ : HashTable K V :=
    { table := [], tableSize := 0, hashFunc := hashFunc, entries := 0, primeIndex := 0 }
  have hfirst : hashTablePrimes[t₀.primeIndex]? = some 193 := rfl
  obtain ⟨t, ht, hsize⟩ := hashTableAllocateTable_prime hfirst
  obtain ⟨hpos, hrow, _, hentries, hindex⟩ := hashTableAllocateTable_spec ht
  refine ⟨t, ht, wellFormed_empty hrow hpos hentries, ?_, ?_, ?_, ?_, fun i hi => ?_⟩
  · rw [HashTable.PrimeSized, hindex, hsize]
    rfl
  · exact hentries.le
  · rw [hentries, hsize]
    change (3 : Int) * 0 < 193 + 3
    decide
  · rw [hindex]
    rfl
  · rw [hindex] at hi
    cases hi

/-- In every run on a new table, whatever the hashes are, all the enlargements together take at most
eight turns for each insertion and eight more; but for one entry less than a third of the table is
full, and the table is no larger than the insertions need. -/
theorem hashTable_growth (hashFunc : K → UInt64) (calls : List (TableCall K V))
    (hn : insertions calls ≤ 500000000) :
    ∃ t₀ : HashTable K V, hashTableNew hashFunc = some t₀ ∧
      (runTable t₀ calls).2 ≤ 8 * (insertions calls + 1) ∧
      3 * ((runTable t₀ calls).1.contents.length - 1) < (runTable t₀ calls).1.tableSize ∧
      (runTable t₀ calls).1.tableSize ≤ 6 * insertions calls + 193 := by
  obtain ⟨t₀, hnew, h₀⟩ := grown_new (V := V) hashFunc
  have h := h₀.run calls (by omega)
  rw [Nat.zero_add, Nat.zero_add] at h
  refine ⟨t₀, hnew, h.turns_le, ?_, h.tableSize_le⟩
  have hload := h.load
  have hcount := h.wellFormed.count
  have hpos := h.wellFormed.tableSize_pos
  omega

/-- Eighty aliases of one hash, of which the first is overwritten. -/
theorem hashTable_growth_eighty :
    ∃ t₀ : HashTable Nat Nat, hashTableNew (fun _ => 7) = some t₀ ∧
      (runTable t₀ ((List.range 80).map fun k => .insert (k % 79) k)).2 ≤ 648 ∧
      3 * ((runTable t₀ ((List.range 80).map fun k => .insert (k % 79) k)).1.contents.length - 1) <
        (runTable t₀ ((List.range 80).map fun k => .insert (k % 79) k)).1.tableSize ∧
      (runTable t₀ ((List.range 80).map fun k => .insert (k % 79) k)).1.tableSize ≤ 673 :=
  hashTable_growth (fun _ => 7) ((List.range 80).map fun k => .insert (k % 79) k) (by decide)

end Redshell
