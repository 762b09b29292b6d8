import Redshell.HashTableMap

/-! The iterator hands out every entry once: what it has still to visit, and one turn of it. -/
namespace Redshell

open HashTable

variable {K V : Type} {t : HashTable K V} {it : HashTableIterator K V}

/-- A scan that stops at chain `j` left nothing but empty chains behind it. -/
theorem scanChains_spec (t : HashTable K V) (n chain : Nat) (hn : n = t.table.length - chain) :
    (scanChains t n chain).1 ++ (t.table.drop ((scanChains t n chain).2 + 1)).flatten =
        (t.table.drop chain).flatten ∧
      ((scanChains t n chain).1 = [] → (t.table.drop chain).flatten = []) := by
  induction n generalizing chain with
  | zero =>
    have hdrop : t.table.drop chain = [] := List.drop_eq_nil_of_le (by omega)
    have hnext : t.table.drop (chain + 1) = [] := List.drop_eq_nil_of_le (by omega)
    simp [scanChains, hdrop, hnext]
  | succ n ih =>
    have hlt : chain < t.table.length := by omega
    have hdrop : t.table.drop chain = t.chain chain :: t.table.drop (chain + 1) := by
      rw [HashTable.chain, List.getD_eq_getElem _ _ hlt]
      exact List.drop_eq_getElem_cons hlt
    cases hc : t.chain chain with
    | nil =>
      have hscan : scanChains t (n + 1) chain = scanChains t n (chain + 1) := by
        simp [scanChains, hc]
      rw [hscan, hdrop, hc, List.flatten_cons, List.nil_append]
      exact ih (chain + 1) (by omega)
    | cons e c =>
      have hscan : scanChains t (n + 1) chain = (e :: c, chain) := by
        simp [scanChains, hc]
      rw [hscan, hdrop, hc]
      simp

namespace HashTableIterator

/-- The entries still to be handed out, in order. -/
def remaining (it : HashTableIterator K V) : List (HashTableEntry K V) :=
  it.nextEntry ++ (it.hashTable.table.drop (it.nextChain + 1)).flatten

/-- The cursor is NULL only at the end of the table. -/
structure Valid (it : HashTableIterator K V) : Prop where
  length_table : it.hashTable.table.length = it.hashTable.tableSize
  ended : it.nextEntry = [] → it.remaining = []

end HashTableIterator

open HashTableIterator

theorem hashTableIterate_spec (h : t.table.length = t.tableSize) :
    (hashTableIterate t).Valid ∧ (hashTableIterate t).remaining = t.contents := by
  obtain ⟨hs, he⟩ := scanChains_spec t t.tableSize 0 (by omega)
  rw [List.drop_zero] at hs he
  refine ⟨⟨h, ?_⟩, hs⟩
  intro hn
  exact hs.trans (he hn)

/-- The chain after an entry that ended its own. -/
theorem scanNext_spec (h : it.hashTable.table.length = it.hashTable.tableSize) :
    let chain := it.nextChain + 1
    let found := scanChains it.hashTable (it.hashTable.tableSize - chain) chain
    let next : HashTableIterator K V := { it with nextEntry := found.1, nextChain := found.2 }
    next.Valid ∧ next.remaining = (it.hashTable.table.drop chain).flatten := by
  intro chain found next
  obtain ⟨hs, he⟩ := scanChains_spec it.hashTable (it.hashTable.tableSize - chain) chain (by omega)
  refine ⟨⟨h, ?_⟩, hs⟩
  intro hn
  exact hs.trans (he hn)

theorem hashTableIterNextEntry_spec (h : it.Valid) :
    (hashTableIterNextEntry it).1 = it.remaining.head? ∧
      (hashTableIterNextEntry it).2.Valid ∧
      (hashTableIterNextEntry it).2.remaining = it.remaining.tail ∧
      (hashTableIterNextEntry it).2.hashTable = it.hashTable := by
  cases hn : it.nextEntry with
  | nil =>
    have hr := h.ended hn
    simp [hashTableIterNextEntry, hn, hr, h]
  | cons e c =>
    cases c with
    | nil =>
      obtain ⟨hv, hr⟩ := scanNext_spec h.length_table
      have hnext : hashTableIterNextEntry it = (some e, { it with
          nextEntry := (scanChains it.hashTable (it.hashTable.tableSize - (it.nextChain + 1))
            (it.nextChain + 1)).1
          nextChain := (scanChains it.hashTable (it.hashTable.tableSize - (it.nextChain + 1))
            (it.nextChain + 1)).2 }) := by
        simp [hashTableIterNextEntry, hn]
      have hall : it.remaining = e :: (it.hashTable.table.drop (it.nextChain + 1)).flatten := by
        simp [remaining, hn]
      rw [hnext, hall]
      exact ⟨rfl, hv, hr, rfl⟩
    | cons f c =>
      have hnext : hashTableIterNextEntry it = (some e, { it with nextEntry := f :: c }) := by
        simp [hashTableIterNextEntry, hn]
      have hall : it.remaining =
          e :: f :: c ++ (it.hashTable.table.drop (it.nextChain + 1)).flatten := by
        simp [remaining, hn]
      rw [hnext, hall]
      refine ⟨rfl, ⟨h.length_table, ?_⟩, rfl, rfl⟩
      intro he
      cases he

/-- The two copies of the iterator move alike; one hands out the entry, the other its value. -/
theorem hashTableIterNext_eq (it : HashTableIterator K V) :
    hashTableIterNext it =
      ((hashTableIterNextEntry it).1.map (·.value), (hashTableIterNextEntry it).2) := by
  unfold hashTableIterNext hashTableIterNextEntry
  split <;> rfl

theorem hashTableIterHasMore_iff (h : it.Valid) :
    hashTableIterHasMore it = true ↔ it.remaining ≠ [] := by
  constructor
  · intro hm he
    have hn : it.nextEntry = [] := (List.append_eq_nil_iff.mp he).1
    simp [hashTableIterHasMore, hn] at hm
  · intro hr
    cases hn : it.nextEntry with
    | nil => exact absurd (h.ended hn) hr
    | cons e c => simp [hashTableIterHasMore, hn]

/-! A loop over an iterator. -/

/-- A `while` loop over an iterator ends after `next` has handed out these items. -/
inductive Walks {I A : Type} (hasMore : I → Bool) (next : I → Option A × I) : I → List A → Prop
  | stop {it : I} (hmore : hasMore it = false) : Walks hasMore next it []
  | turn {it it' : I} {a : A} {items : List A} (hmore : hasMore it = true)
      (hnext : next it = (some a, it')) (hrest : Walks hasMore next it' items) :
      Walks hasMore next it (a :: items)

section

variable {I A B : Type} {hasMore : I → Bool} {next : I → Option A × I} {it : I}
  {items items' : List A}

/-- An iterator has one walk only. -/
theorem Walks.unique (h : Walks hasMore next it items) (h' : Walks hasMore next it items') :
    items = items' := by
  induction h generalizing items' with
  | stop hmore =>
    cases h' with
    | stop => rfl
    | turn hmore' => cases hmore.symm.trans hmore'
  | turn hmore hnext _ ih =>
    cases h' with
    | stop hmore' => cases hmore.symm.trans hmore'
    | turn hmore' hnext' hrest' =>
      cases hnext.symm.trans hnext'
      rw [ih hrest']

/-- A second iterator that moves alike and hands out an image of the items. -/
theorem Walks.map {next' : I → Option B × I} {f : A → B}
    (hnext' : ∀ it, next' it = ((next it).1.map f, (next it).2)) (h : Walks hasMore next it items) :
    Walks hasMore next' it (items.map f) := by
  induction h with
  | stop hmore => exact .stop hmore
  | turn hmore hnext _ ih =>
    refine .turn hmore ?_ ih
    rw [hnext', hnext]
    rfl

end

/-- The walk hands out what the iterator has still to visit. -/
theorem walks_remaining (h : it.Valid) :
    Walks hashTableIterHasMore hashTableIterNextEntry it it.remaining := by
  induction hr : it.remaining generalizing it with
  | nil =>
    apply Walks.stop
    have hnone := mt (hashTableIterHasMore_iff h).mp (not_not.mpr hr)
    exact Bool.eq_false_iff.mpr hnone
  | cons e rest ih =>
    obtain ⟨hfst, hvalid, htail, _⟩ := hashTableIterNextEntry_spec h
    rw [hr] at hfst htail
    have hmore : hashTableIterHasMore it = true :=
      (hashTableIterHasMore_iff h).mpr (by simp [hr])
    exact .turn hmore (Prod.ext hfst rfl) (ih hvalid htail)

end Redshell
