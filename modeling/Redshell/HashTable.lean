import Redshell.Chain

/-! The chained hash table of hash-table.c. Memory release is left out: it returns no value. -/
namespace Redshell

abbrev HashTableEntry := Chain.Entry

/-- `struct _HashTable`; keys are compared by the decidable equality that `equal_func` computes. -/
structure HashTable (K V : Type) where
  table : List (List (HashTableEntry K V))
  tableSize : Nat
  hashFunc : K → UInt64
  entries : Int
  primeIndex : Nat

def hashTablePrimes : List Nat :=
  [193, 389, 769, 1543, 3079, 6151, 12289, 24593, 49157, 98317,
   196613, 393241, 786433, 1572869, 3145739, 6291469,
   12582917, 25165843, 50331653, 100663319, 201326611,
   402653189, 805306457, 1610612741]

/-- The value of an `int` expression, wrapped to 32 bits. -/
def int32 (n : Int) : Int := n.bmod (2 ^ 32)

variable {K V : Type} [DecidableEq K]

namespace HashTable

/-- `hash_func(key) % table_size` -/
def index (t : HashTable K V) (key : K) : Nat := (t.hashFunc key).toNat % t.tableSize

def chain (t : HashTable K V) (i : Nat) : List (HashTableEntry K V) := t.table.getD i []

def setChain (t : HashTable K V) (i : Nat) (c : List (HashTableEntry K V)) : HashTable K V :=
  { t with table := t.table.set i c }

def contents (t : HashTable K V) : List (HashTableEntry K V) := t.table.flatten

end HashTable

/-- The prime of the current index; past the last one, ten times the entries as an `int`. -/
def newTableSize (t : HashTable K V) : Int :=
  match hashTablePrimes[t.primeIndex]? with
  | some prime => prime
  | none => int32 (t.entries * 10)

/-- `calloc` of a negative `int`, converted to a size, cannot be met: no table. -/
def hashTableAllocateTable (t : HashTable K V) : Option (HashTable K V) :=
  if 0 < newTableSize t then
    some { t with
      tableSize := (newTableSize t).toNat
      table := List.replicate (newTableSize t).toNat [] }
  else none

def hashTableNew (hashFunc : K → UInt64) : Option (HashTable K V) :=
  hashTableAllocateTable
    { table := [], tableSize := 0, hashFunc := hashFunc, entries := 0, primeIndex := 0 }

/-- Links an entry at the front of its chain in the new table. -/
def relink (t : HashTable K V) (rover : HashTableEntry K V) : HashTable K V :=
  t.setChain (t.index rover.key) (rover :: t.chain (t.index rover.key))

def hashTableEnlarge (t : HashTable K V) : Option (HashTable K V) :=
  (hashTableAllocateTable { t with primeIndex := t.primeIndex + 1 }).map fun new =>
    t.table.foldl (fun new rover => rover.foldl relink new) new

/-- The part of `hash_table_insert` after the table was found or made large enough. -/
def hashTableInsertEntry (t : HashTable K V) (key : K) (value : V) : HashTable K V :=
  match Chain.overwrite key value (t.chain (t.index key)) with
  | some chain => t.setChain (t.index key) chain
  | none =>
    { t.setChain (t.index key) (⟨key, value⟩ :: t.chain (t.index key)) with
      entries := t.entries + 1 }

/-- The table afterwards, and whether the value was added. -/
def hashTableInsert (t : HashTable K V) (key : K) (value : V) : HashTable K V × Bool :=
  if 0 < (int32 (t.entries * 3)).tdiv t.tableSize then
    match hashTableEnlarge t with
    | none => (t, false)
    | some t => (hashTableInsertEntry t key value, true)
  else (hashTableInsertEntry t key value, true)

def hashTableLookup (t : HashTable K V) (key : K) : Option V :=
  Chain.find key (t.chain (t.index key))

/-- The table afterwards, and whether a key was removed. -/
def hashTableRemove (t : HashTable K V) (key : K) : HashTable K V × Bool :=
  match Chain.unlink key (t.chain (t.index key)) with
  | some chain => ({ t.setChain (t.index key) chain with entries := t.entries - 1 }, true)
  | none => (t, false)

def hashTableNumEntries (t : HashTable K V) : Int := t.entries

/-- `nextEntry` is the entry pointed at with those linked after it; empty, it is NULL. -/
structure HashTableIterator (K V : Type) where
  hashTable : HashTable K V
  nextEntry : List (HashTableEntry K V)
  nextChain : Nat

/-- The search for a chain with an entry, `n` chains from `chain` on: its entries and number. -/
def scanChains (t : HashTable K V) : Nat → Nat → List (HashTableEntry K V) × Nat
  | 0, chain => ([], chain)
  | n + 1, chain =>
    match t.chain chain with
    | [] => scanChains t n (chain + 1)
    | entry => (entry, chain)

def hashTableIterate (t : HashTable K V) : HashTableIterator K V :=
  let first := scanChains t t.tableSize 0
  { hashTable := t, nextEntry := first.1, nextChain := first.2 }

def hashTableIterHasMore (it : HashTableIterator K V) : Bool := !it.nextEntry.isEmpty

/-- The entry handed out, and the iterator moved past it. -/
def hashTableIterNextEntry (it : HashTableIterator K V) :
    Option (HashTableEntry K V) × HashTableIterator K V :=
  match it.nextEntry with
  | [] => (none, it)
  | current :: [] =>
    let chain := it.nextChain + 1
    let found := scanChains it.hashTable (it.hashTable.tableSize - chain) chain
    (some current, { it with nextEntry := found.1, nextChain := found.2 })
  | current :: next => (some current, { it with nextEntry := next })

/-- The value handed out, and the iterator moved past its entry. -/
def hashTableIterNext (it : HashTableIterator K V) : Option V × HashTableIterator K V :=
  match it.nextEntry with
  | [] => (none, it)
  | current :: [] =>
    let chain := it.nextChain + 1
    let found := scanChains it.hashTable (it.hashTable.tableSize - chain) chain
    (some current.value, { it with nextEntry := found.1, nextChain := found.2 })
  | current :: next => (some current.value, { it with nextEntry := next })

end Redshell
