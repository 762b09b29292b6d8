import Redshell.CString
import Redshell.HashTableIterator

/-! The alias dictionary of alias.c, hash-string.c and compare-string.c. -/
namespace Redshell

/-- `alias_t` -/
structure Alias where
  value : CString
  inUse : Int

/-- The table maps names to the addresses of `alias_t` objects; `malloc` returns `fresh` next. -/
structure Aliases where
  table : HashTable CString Nat
  heap : Nat → Alias
  fresh : Nat

/-- The djb2 hash of hash-string.c, over the bytes as `unsigned char`. -/
def stringHash (s : CString) : UInt64 :=
  s.foldl (fun result p => (result <<< 5 ^^^ result) ^^^ p.toUInt64) 5381

def initializeAliases : Option Aliases :=
  (hashTableNew stringHash).map fun table =>
    { table := table, heap := fun _ => { value := [], inUse := 0 }, fresh := 0 }

/-- The new `alias_t` with the value stored in it. -/
def aliasNew (st : Aliases) (value : CString) : Aliases :=
  { st with
    heap := Function.update st.heap st.fresh { value := value, inUse := 0 }
    fresh := st.fresh + 1 }

def addAlias (st : Aliases) (key value : CString) : Aliases :=
  { aliasNew st value with table := (hashTableInsert st.table key st.fresh).1 }

def removeAlias (st : Aliases) (key : CString) : Aliases :=
  { st with table := (hashTableRemove st.table key).1 }

def setInUse (st : Aliases) (addr : Nat) (inUse : Int) : Aliases :=
  { st with heap := Function.update st.heap addr { st.heap addr with inUse := inUse } }

def getAlias (st : Aliases) (key : CString) : Option CString × Aliases :=
  match hashTableLookup st.table key with
  | some addr =>
    if (st.heap addr).inUse = 0 then (some (st.heap addr).value, setInUse st addr 1)
    else (none, st)
  | none => (none, st)

/-- The loop of `releaseAliases`, for at most so many turns. -/
def releaseLoop : Nat → HashTableIterator CString Nat → Aliases → Aliases
  | 0, _, st => st
  | n + 1, it, st =>
    if hashTableIterHasMore it then
      match hashTableIterNext it with
      | (some addr, it) => releaseLoop n it (setInUse st addr 0)
      | (none, _) => st
    else st

def releaseAliases (st : Aliases) : Aliases :=
  releaseLoop (hashTableNumEntries st.table).toNat (hashTableIterate st.table) st

/-- The loop of `printAliases`, for at most so many turns. -/
def printLoop (st : Aliases) : Nat → HashTableIterator CString Nat → List UInt8
  | 0, _ => []
  | n + 1, it =>
    if hashTableIterHasMore it then
      match hashTableIterNextEntry it with
      | (some entry, it) =>
        entry.key ++ bytes "='" ++ (st.heap entry.value).value ++ bytes "'\n" ++ printLoop st n it
      | (none, _) => []
    else []

/-- What `printAliases` writes. -/
def printAliases (st : Aliases) : List UInt8 :=
  printLoop st (hashTableNumEntries st.table).toNat (hashTableIterate st.table)

namespace Aliases

/-- What a lookup by name finds, the `in_use` flag left aside. -/
def find (st : Aliases) (key : CString) : Option CString :=
  (hashTableLookup st.table key).map fun addr => (st.heap addr).value

/-- The addresses the table holds. -/
def addrs (st : Aliases) : List Nat := st.table.contents.map (·.value)

/-- The table is well formed and its entries own distinct allocated objects. -/
structure Valid (st : Aliases) : Prop where
  wellFormed : st.table.WellFormed
  distinct : st.addrs.Nodup
  allocated : ∀ e ∈ st.table.contents, e.value < st.fresh

/-- No alias of the table is in use. -/
def Released (st : Aliases) : Prop := ∀ e ∈ st.table.contents, (st.heap e.value).inUse = 0

/-- The names in use are those of `used`. -/
def Marked (st : Aliases) (used : List CString) : Prop :=
  ∀ e ∈ st.table.contents, (st.heap e.value).inUse = 0 ↔ e.key ∉ used

/-- The same table, values and other objects; the flags of the entries may differ. -/
structure SameMap (st st' : Aliases) : Prop where
  table_eq : st'.table = st.table
  fresh_eq : st'.fresh = st.fresh
  value_eq : ∀ addr, (st'.heap addr).value = (st.heap addr).value
  heap_eq : ∀ addr, addr ∉ st.addrs → st'.heap addr = st.heap addr

variable {st st' st'' : Aliases} {k k' v w : CString} {used : List CString} {a : Nat}

theorem SameMap.refl (st : Aliases) : SameMap st st := ⟨rfl, rfl, fun _ => rfl, fun _ _ => rfl⟩

theorem SameMap.addrs_eq (h : SameMap st st') : st'.addrs = st.addrs := by
  rw [addrs, addrs, h.table_eq]

theorem SameMap.trans (h : SameMap st st') (h' : SameMap st' st'') : SameMap st st'' where
  table_eq := h'.table_eq.trans h.table_eq
  fresh_eq := h'.fresh_eq.trans h.fresh_eq
  value_eq a := (h'.value_eq a).trans (h.value_eq a)
  heap_eq a ha := (h'.heap_eq a (h.addrs_eq ▸ ha)).trans (h.heap_eq a ha)

theorem SameMap.find_eq (h : SameMap st st') : st'.find = st.find := by
  funext k
  simp [find, h.table_eq, h.value_eq]

theorem SameMap.valid (h : SameMap st st') (hv : st.Valid) : st'.Valid := by
  obtain ⟨hw, hd, ha⟩ := hv
  exact ⟨h.table_eq ▸ hw, h.addrs_eq ▸ hd, by rwa [h.table_eq, h.fresh_eq]⟩

theorem Released.marked (h : st.Released) : st.Marked [] := by
  intro e he
  simpa using h e he

/-- Between two states with no alias in use only the flags could differ, so nothing does. -/
theorem SameMap.eq_of_released (h : SameMap st st') (hr : st.Released) (hr' : st'.Released) :
    st' = st := by
  obtain ⟨table, heap, fresh⟩ := st
  obtain ⟨table', heap', fresh'⟩ := st'
  obtain ⟨rfl, rfl, hv, hh⟩ := h
  have heap_eq : heap' = heap := by
    funext a
    by_cases ha : a ∈ addrs ⟨table', heap, fresh'⟩
    · obtain ⟨e, he, rfl⟩ := List.mem_map.mp ha
      have hin : (heap' e.value).inUse = (heap e.value).inUse := (hr' e he).trans (hr e he).symm
      have hva := hv e.value
      cases h1 : heap' e.value
      cases h2 : heap e.value
      simp_all
    · exact hh a ha
  rw [heap_eq]

theorem sameMap_setInUse {addr : Nat} (h : addr ∈ st.addrs) (n : Int) :
    SameMap st (setInUse st addr n) := by
  refine ⟨rfl, rfl, fun b => ?_, fun b hb => ?_⟩
  · by_cases hb : b = addr
    · subst hb
      simp [setInUse]
    · simp [setInUse, hb]
  · have hne : b ≠ addr := by
      rintro rfl
      exact hb h
    simp [setInUse, hne]

theorem inUse_setInUse (st : Aliases) (addr b : Nat) (n : Int) :
    ((setInUse st addr n).heap b).inUse = if b = addr then n else (st.heap b).inUse := by
  by_cases hb : b = addr
  · subst hb
    simp [setInUse]
  · simp [setInUse, hb]

/-- Distinct entries of a valid dictionary have distinct objects. -/
theorem Valid.eq_of_value {e f : HashTableEntry CString Nat} (h : st.Valid)
    (he : e ∈ st.table.contents) (hf : f ∈ st.table.contents) (hv : e.value = f.value) : e = f :=
  List.inj_on_of_nodup_map h.distinct he hf hv

theorem find_eq_some_iff (h : st.Valid) :
    st.find k = some v ↔
      ∃ a, (⟨k, a⟩ : HashTableEntry CString Nat) ∈ st.table.contents ∧ (st.heap a).value = v := by
  simp [find, Option.map_eq_some_iff, hashTableLookup_eq_some_iff h.wellFormed]

theorem find_eq_none_iff (h : st.Valid) :
    st.find k = none ↔ k ∉ Chain.keys st.table.contents := by
  simp [find, hashTableLookup_eq_none_iff h.wellFormed]

end Aliases

open Aliases

variable {st st' : Aliases} {k k' v w : CString} {used : List CString}

/-- `getAlias` hands out a value once: it marks the name, and finds no marked name. -/
theorem getAlias_spec (h : st.Valid) (hm : st.Marked used) (k : CString) :
    (∃ v, st.find k = some v ∧ k ∉ used ∧ (getAlias st k).1 = some v ∧
        SameMap st (getAlias st k).2 ∧ (getAlias st k).2.Marked (k :: used)) ∨
      ((st.find k = none ∨ k ∈ used) ∧ getAlias st k = (none, st)) := by
  cases hl : hashTableLookup st.table k with
  | none =>
    right
    exact ⟨Or.inl (by simp [Aliases.find, hl]), by simp [getAlias, hl]⟩
  | some a =>
    have hmem := (hashTableLookup_eq_some_iff h.wellFormed).mp hl
    by_cases hu : k ∈ used
    · right
      have hne : ¬ (st.heap a).inUse = 0 := fun h0 => (hm _ hmem).mp h0 hu
      exact ⟨Or.inr hu, by simp [getAlias, hl, hne]⟩
    · left
      have h0 : (st.heap a).inUse = 0 := (hm _ hmem).mpr hu
      have hget : getAlias st k = (some (st.heap a).value, setInUse st a 1) := by
        simp [getAlias, hl, h0]
      refine ⟨(st.heap a).value, by simp [Aliases.find, hl], hu, by rw [hget], ?_, ?_⟩
      · rw [hget]
        exact sameMap_setInUse (List.mem_map_of_mem (f := (·.value)) hmem) 1
      · rw [hget]
        intro e he
        rw [inUse_setInUse]
        by_cases hea : e.value = a
        · obtain rfl := h.eq_of_value he hmem hea
          simp
        · have hek : e.key ≠ k := by
            rintro rfl
            have hl' := (hashTableLookup_eq_some_iff h.wellFormed).mpr he
            rw [hl] at hl'
            exact hea (Option.some.inj hl').symm
          simp [hea, hek, hm e he]

/-- The loop clears the flags of the objects of its walk, in turn. -/
theorem releaseLoop_walks {n : Nat} {it : HashTableIterator CString Nat} {addrs : List Nat}
    (h : Walks hashTableIterHasMore hashTableIterNext it addrs) (hn : addrs.length ≤ n) :
    releaseLoop n it st = addrs.foldl (fun st addr => setInUse st addr 0) st := by
  induction h generalizing n st with
  | stop hmore =>
    cases n with
    | zero => rfl
    | succ n => simp [releaseLoop, hmore]
  | @turn it it' addr addrs hmore hnext _ ih =>
    cases n with
    | zero => cases hn
    | succ n =>
      rw [List.foldl_cons, ← ih (Nat.le_of_succ_le_succ hn)]
      simp [releaseLoop, hmore, hnext]

/-- Clearing the flags of some objects of the dictionary leaves the others as they are. -/
theorem clearFlags_spec {addrs : List Nat} (h : addrs ⊆ st.addrs) :
    SameMap st (addrs.foldl (fun st addr => setInUse st addr 0) st) ∧
      ∀ a, ((addrs.foldl (fun st addr => setInUse st addr 0) st).heap a).inUse =
        if a ∈ addrs then 0 else (st.heap a).inUse := by
  induction addrs generalizing st with
  | nil => exact ⟨.refl st, fun a => rfl⟩
  | cons addr addrs ih =>
    rw [List.cons_subset] at h
    have hsame := sameMap_setInUse h.1 0
    have hrest : addrs ⊆ (setInUse st addr 0).addrs := by
      rw [hsame.addrs_eq]
      exact h.2
    obtain ⟨hs, hu⟩ := ih hrest
    rw [List.foldl_cons]
    refine ⟨hsame.trans hs, fun a => ?_⟩
    rw [hu a, inUse_setInUse]
    by_cases ha : a = addr <;> simp [ha]

theorem releaseAliases_spec (h : st.table.WellFormed) :
    SameMap st (releaseAliases st) ∧ (releaseAliases st).Released := by
  obtain ⟨hv, hr⟩ := hashTableIterate_spec h.length_table
  have hwalk := (walks_remaining hv).map hashTableIterNext_eq
  rw [hr] at hwalk
  have hcleared : releaseAliases st = st.addrs.foldl (fun st addr => setInUse st addr 0) st := by
    refine releaseLoop_walks hwalk ?_
    rw [addrs, List.length_map, hashTableNumEntries, h.count, Int.toNat_natCast]
  obtain ⟨hs, hu⟩ := clearFlags_spec (List.Subset.refl st.addrs)
  rw [hcleared]
  refine ⟨hs, fun e he => ?_⟩
  rw [hs.table_eq] at he
  have hmem : e.value ∈ st.addrs := List.mem_map_of_mem he
  rw [hu, if_pos hmem]

/-! The dictionary's operations keep it valid and act on the names as on a map. -/

theorem hashTableNew_spec {K V : Type} (hashFunc : K → UInt64) :
    ∃ t : HashTable K V, hashTableNew hashFunc = some t ∧ t.WellFormed ∧ t.PrimeSized ∧
      t.contents = [] := by
  obtain ⟨t, ht, hs⟩ := hashTableAllocateTable_prime (n := 193)
    (t := { table := ([] : List (List (HashTableEntry K V))), tableSize := 0,
            hashFunc := hashFunc, entries := 0, primeIndex := 0 }) rfl
  obtain ⟨hpos, hrow, _, he, hi⟩ := hashTableAllocateTable_spec ht
  refine ⟨t, ht, wellFormed_empty hrow hpos he, ?_, ?_⟩
  · rw [HashTable.PrimeSized, hi, hs]
    rfl
  · simp [HashTable.contents, hrow]

theorem initializeAliases_spec (h : initializeAliases = some st) :
    st.Valid ∧ st.Released ∧ st.table.PrimeSized ∧ st.table.contents = [] := by
  obtain ⟨t, ht, hw, hp, hc⟩ := hashTableNew_spec (V := Nat) stringHash
  rw [initializeAliases, ht, Option.map_some, Option.some.injEq] at h
  subst h
  refine ⟨⟨hw, ?_, ?_⟩, ?_, hp, hc⟩
  · simp [addrs, hc]
  · simp [hc]
  · simp [Released, hc]

theorem addAlias_table (st : Aliases) (k v : CString) :
    (addAlias st k v).table = (hashTableInsert st.table k st.fresh).1 := rfl

theorem removeAlias_table (st : Aliases) (k : CString) :
    (removeAlias st k).table = (hashTableRemove st.table k).1 := rfl

theorem addAlias_heap (st : Aliases) (k v : CString) :
    (addAlias st k v).heap = (aliasNew st v).heap := rfl

theorem heap_aliasNew_of_mem (h : st.Valid) {e : HashTableEntry CString Nat}
    (he : e ∈ st.table.contents) : (aliasNew st v).heap e.value = st.heap e.value := by
  have hne : e.value ≠ st.fresh := by
    have := h.allocated e he
    omega
  simp [aliasNew, hne]

/-- A valid dictionary after an insertion has the old entries and perhaps the new one. -/
theorem mem_contents_addAlias (h : st.Valid) {e : HashTableEntry CString Nat}
    (he : e ∈ (addAlias st k v).table.contents) : e = ⟨k, st.fresh⟩ ∨ e ∈ st.table.contents := by
  rw [addAlias_table] at he
  obtain ⟨_, ht⟩ | ⟨_, _, hp⟩ := hashTableInsert_cases h.wellFormed k st.fresh
  · rw [ht] at he
    exact Or.inr he
  · rcases List.mem_cons.mp (hp.mem_iff.mp he) with he | he
    · exact Or.inl he
    · exact Or.inr (Chain.mem_others.mp he).1

theorem addAlias_valid (h : st.Valid) (k v : CString) : (addAlias st k v).Valid where
  wellFormed := hashTableInsert_wellFormed h.wellFormed k st.fresh
  distinct := by
    rw [addrs, addAlias_table]
    obtain ⟨_, ht⟩ | ⟨_, _, hp⟩ := hashTableInsert_cases h.wellFormed k st.fresh
    · rw [ht]
      exact h.distinct
    · rw [(hp.map _).nodup_iff, List.map_cons, List.nodup_cons]
      constructor
      · intro hm
        obtain ⟨e, he, hf⟩ := List.mem_map.mp hm
        have hlt := h.allocated e (Chain.mem_others.mp he).1
        change e.value = st.fresh at hf
        omega
      · exact h.distinct.sublist (List.filter_sublist.map _)
  allocated := by
    intro e he
    change e.value < st.fresh + 1
    rcases mem_contents_addAlias h he with rfl | he
    · exact Nat.lt_succ_self _
    · exact Nat.lt_succ_of_lt (h.allocated e he)

theorem addAlias_released (h : st.Valid) (hr : st.Released) : (addAlias st k v).Released := by
  intro e he
  change ((aliasNew st v).heap e.value).inUse = 0
  rcases mem_contents_addAlias h he with rfl | he
  · simp [aliasNew]
  · rw [heap_aliasNew_of_mem h he]
    exact hr e he

theorem find_addAlias (h : st.Valid) (hk : (hashTableInsert st.table k st.fresh).2 = true) :
    (addAlias st k v).find k' = if k' = k then some v else st.find k' := by
  rw [Aliases.find, addAlias_table, addAlias_heap, hashTableLookup_insert h.wellFormed hk]
  split
  · simp [aliasNew]
  · cases hl : hashTableLookup st.table k' with
    | none => simp [Aliases.find, hl]
    | some a =>
      have he := (hashTableLookup_eq_some_iff h.wellFormed).mp hl
      have hheap := heap_aliasNew_of_mem (v := v) h he
      simp only at hheap
      simp [Aliases.find, hl, hheap]

theorem mem_contents_removeAlias (h : st.Valid) {e : HashTableEntry CString Nat}
    (he : e ∈ (removeAlias st k).table.contents) : e ∈ st.table.contents :=
  (Chain.mem_others.mp ((hashTableRemove_spec h.wellFormed k).2.mem_iff.mp he)).1

theorem removeAlias_valid (h : st.Valid) (k : CString) : (removeAlias st k).Valid where
  wellFormed := (hashTableRemove_spec h.wellFormed k).1
  distinct := by
    rw [addrs, removeAlias_table]
    rw [((hashTableRemove_spec h.wellFormed k).2.map _).nodup_iff]
    exact h.distinct.sublist (List.filter_sublist.map _)
  allocated := by
    intro e he
    exact h.allocated e (mem_contents_removeAlias h he)

theorem removeAlias_released (h : st.Valid) (hr : st.Released) : (removeAlias st k).Released := by
  intro e he
  exact hr e (mem_contents_removeAlias h he)

theorem find_removeAlias (h : st.Valid) :
    (removeAlias st k).find k' = if k' = k then none else st.find k' := by
  rw [Aliases.find, removeAlias_table, hashTableLookup_remove h.wellFormed]
  split <;> rfl

/-- An alias dictionary as the shell keeps it between two operations. -/
structure Dictionary extends Aliases where
  valid : toAliases.Valid
  released : toAliases.Released

namespace Dictionary

def addAlias (d : Dictionary) (k v : CString) : Dictionary where
  toAliases := Redshell.addAlias d.toAliases k v
  valid := addAlias_valid d.valid k v
  released := addAlias_released d.valid d.released

theorem initializeAliases_isSome : initializeAliases.isSome = true := rfl

/-- The dictionary `initializeAliases` makes. -/
def empty : Dictionary where
  toAliases := initializeAliases.get initializeAliases_isSome
  valid := (initializeAliases_spec (Option.some_get _).symm).1
  released := (initializeAliases_spec (Option.some_get _).symm).2.1

theorem find_empty (k : CString) : empty.find k = none := by
  have hc := (initializeAliases_spec (Option.some_get initializeAliases_isSome).symm).2.2.2
  rw [Aliases.find_eq_none_iff empty.valid]
  change k ∉ Chain.keys (initializeAliases.get initializeAliases_isSome).table.contents
  simp [hc, Chain.keys]

/-- What a dictionary with a single alias finds. -/
theorem find_single (k v k' : CString) :
    (empty.addAlias k v).find k' = if k' = k then some v else none := by
  have hsized : empty.table.PrimeSized :=
    (initializeAliases_spec (Option.some_get initializeAliases_isSome).symm).2.2.1
  have hk := (hashTableInsert_primeSized (k := k) (v := empty.fresh) hsized (by decide)
    (by decide)).1
  change (Redshell.addAlias empty.toAliases k v).find k' = _
  rw [find_addAlias empty.valid hk, find_empty]

end Dictionary

end Redshell
