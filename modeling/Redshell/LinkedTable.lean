import Redshell.HashTableIterator
import Redshell.LinkedQueue

/-! The hash table of hash-table.c in memory: its array, its chains of entries, and the functions
that read and free the keys and values it is given. -/
namespace Redshell.LinkedTable

open LinkedQueue (Addr null)

/-- `HashTableEntry` -/
structure EntryNode (K V : Type) where
  key : K
  value : V
  next : Addr

/-- The functions of a table, on the memory `μ` that its keys and values are in; none where one
reads or frees what is not there. A free function may be NULL. -/
structure Functions (μ K V : Type) where
  hashFunc : μ → K → Option UInt64
  equalFunc : μ → K → K → Option Bool
  keyFreeFunc : Option (μ → K → Option μ)
  valueFreeFunc : Option (μ → V → Option μ)

/-- `struct _HashTable`, with the memory of its keys and values and the memory of its entries. -/
structure TableT (μ K V : Type) where
  client : μ
  heap : Addr → Option (EntryNode K V)
  table : List Addr
  tableSize : Nat
  functions : Functions μ K V
  entries : Int
  primeIndex : Nat

variable {μ K V : Type}

/-- A call of a free function, if there is one. -/
def callFree {β : Type} (free : Option (μ → β → Option μ)) (client : μ) (p : β) : Option μ :=
  match free with
  | none => some client
  | some free => free client p

namespace TableT

/-- What a pointer refers to; a NULL or a freed one refers to nothing. -/
def deref (t : TableT μ K V) (p : Addr) : Option (EntryNode K V) :=
  if p = null then none else t.heap p

/-- `hash_func(key) % table_size` -/
def index (t : TableT μ K V) (key : K) : Option Nat :=
  (t.functions.hashFunc t.client key).map fun hash => hash.toNat % t.tableSize

/-- The prime of the current index; past the last one, ten times the entries as an `int`. -/
def newTableSize (t : TableT μ K V) : Int :=
  match hashTablePrimes[t.primeIndex]? with
  | some prime => prime
  | none => int32 (t.entries * 10)

/-- More turns than a chain of this table has entries. -/
def turns (t : TableT μ K V) : Nat := t.entries.toNat + 1

end TableT

/-- None when `calloc` fails; `granted` tells whether it does for a size that it can meet. -/
def hashTableAllocateTable (t : TableT μ K V) (granted : Bool) : Option (TableT μ K V) :=
  if granted = true ∧ 0 < t.newTableSize then
    some { t with
      tableSize := t.newTableSize.toNat
      table := List.replicate t.newTableSize.toNat null }
  else none

/-- `hash_table_new`, none for NULL, and `hash_table_register_free_functions`. -/
def hashTableNew (client : μ) (heap : Addr → Option (EntryNode K V)) (functions : Functions μ K V)
    (granted : Bool) : Option (TableT μ K V) :=
  hashTableAllocateTable
    { client := client, heap := heap, table := [], tableSize := 0, functions := functions,
      entries := 0, primeIndex := 0 }
    granted

/-- The key, the value and the entry are freed. -/
def hashTableFreeEntry (t : TableT μ K V) (entry : Addr) : Option (TableT μ K V) := do
  let node ← t.deref entry
  let client ← callFree t.functions.keyFreeFunc t.client node.key
  let client ← callFree t.functions.valueFreeFunc client node.value
  return { t with client := client, heap := Function.update t.heap entry none }

/-- The walk over one old chain, for at most so many turns: its entries are linked into the
table. -/
def relinkChain : Nat → TableT μ K V → Addr → Option (TableT μ K V)
  | 0, _, _ => none
  | n + 1, t, rover =>
    if rover = null then some t
    else do
      let entry ← t.deref rover
      let index ← t.index entry.key
      let head ← t.table[index]?
      let linked := { t with
        heap := Function.update t.heap rover (some { entry with next := head })
        table := t.table.set index rover }
      relinkChain n linked entry.next

/-- The chains of the old array, one after another. -/
def relinkAll (n : Nat) : List Addr → TableT μ K V → Option (TableT μ K V)
  | [], t => some t
  | rover :: oldTable, t => do
    let t ← relinkChain n t rover
    relinkAll n oldTable t

/-- The table afterwards, and whether it was enlarged. -/
def hashTableEnlarge (t : TableT μ K V) (granted : Bool) : Option (TableT μ K V × Bool) :=
  match hashTableAllocateTable { t with primeIndex := t.primeIndex + 1 } granted with
  | none => some (t, false)
  | some new => (relinkAll t.turns t.table new).map (·, true)

/-- The walk along a chain to an entry whose key is `same`, for at most so many turns: its address,
null when there is none. -/
def findEntry (t : TableT μ K V) (same : K → Option Bool) : Nat → Addr → Option Addr
  | 0, _ => none
  | n + 1, rover =>
    if rover = null then some null
    else do
      let entry ← t.deref rover
      if ← same entry.key then return rover else findEntry t same n entry.next

/-- `hash_table_insert` once the table is large enough; `malloc` returns `node` for an entry. -/
def insertEntry (t : TableT μ K V) (key : K) (value : V) (node : Addr) :
    Option (TableT μ K V × Bool) := do
  let index ← t.index key
  let head ← t.table[index]?
  let rover ← findEntry t (fun old => t.functions.equalFunc t.client old key) t.turns head
  if rover = null then
    if node = null then return (t, false)
    else return ({ t with
      heap := Function.update t.heap node (some { key := key, value := value, next := head })
      table := t.table.set index node
      entries := t.entries + 1 }, true)
  else
    let entry ← t.deref rover
    let client ← callFree t.functions.valueFreeFunc t.client entry.value
    let client ← callFree t.functions.keyFreeFunc client entry.key
    return ({ t with
      client := client
      heap := Function.update t.heap rover (some { entry with key := key, value := value }) }, true)

/-- The table afterwards, and whether the value was added. -/
def hashTableInsert (t : TableT μ K V) (key : K) (value : V) (granted : Bool) (node : Addr) :
    Option (TableT μ K V × Bool) :=
  if 0 < (int32 (t.entries * 3)).tdiv t.tableSize then do
    let (t, enlarged) ← hashTableEnlarge t granted
    if enlarged then insertEntry t key value node else return (t, false)
  else insertEntry t key value node

/-- The value found, none for `HASH_TABLE_NULL`. -/
def hashTableLookup (t : TableT μ K V) (key : K) : Option (Option V) := do
  let index ← t.index key
  let head ← t.table[index]?
  let rover ← findEntry t (fun old => t.functions.equalFunc t.client key old) t.turns head
  if rover = null then return none
  else return some (← t.deref rover).value

/-- What the `rover` of `hash_table_remove` points at: a chain's head, or the link in an entry. -/
inductive Link where
  | head (index : Nat)
  | next (entry : Addr)

def Link.read (t : TableT μ K V) : Link → Option Addr
  | head index => t.table[index]?
  | next entry => (t.deref entry).map EntryNode.next

def Link.write (t : TableT μ K V) (p : Addr) : Link → Option (TableT μ K V)
  | head index =>
    if index < t.table.length then some { t with table := t.table.set index p } else none
  | next entry => (t.deref entry).map fun node =>
    { t with heap := Function.update t.heap entry (some { node with next := p }) }

/-- The loop of `hash_table_remove`, for at most so many turns. -/
def removeLoop (t : TableT μ K V) (key : K) : Nat → Link → Option (TableT μ K V × Bool)
  | 0, _ => none
  | n + 1, rover => do
    let entry ← rover.read t
    if entry = null then return (t, false)
    else
      let node ← t.deref entry
      if ← t.functions.equalFunc t.client key node.key then
        let unlinked ← rover.write t node.next
        let freed ← hashTableFreeEntry unlinked entry
        return ({ freed with entries := t.entries - 1 }, true)
      else removeLoop t key n (.next entry)

/-- The table afterwards, and whether a key was removed. -/
def hashTableRemove (t : TableT μ K V) (key : K) : Option (TableT μ K V × Bool) := do
  let index ← t.index key
  removeLoop t key t.turns (.head index)

/-- The walk over a chain that frees its entries, for at most so many turns. -/
def freeChain : Nat → TableT μ K V → Addr → Option (TableT μ K V)
  | 0, _, _ => none
  | n + 1, t, rover =>
    if rover = null then some t
    else do
      let next := (← t.deref rover).next
      let t ← hashTableFreeEntry t rover
      freeChain n t next

def freeAll (n : Nat) : List Addr → TableT μ K V → Option (TableT μ K V)
  | [], t => some t
  | rover :: table, t => do
    let t ← freeChain n t rover
    freeAll n table t

/-- The memory that is left. -/
def hashTableFree (t : TableT μ K V) : Option (μ × (Addr → Option (EntryNode K V))) :=
  (freeAll t.turns t.table t).map fun t => (t.client, t.heap)

/-- `HashTableIterator`, without the pointer to its table. -/
structure Iterator where
  nextEntry : Addr
  nextChain : Nat

/-- The search for a chain with an entry, `n` chains from `chain` on. -/
def scanChains (t : TableT μ K V) : Nat → Nat → Option Iterator
  | 0, chain => some { nextEntry := null, nextChain := chain }
  | n + 1, chain => do
    let head ← t.table[chain]?
    if head = null then scanChains t n (chain + 1)
    else return { nextEntry := head, nextChain := chain }

def hashTableIterate (t : TableT μ K V) : Option Iterator := scanChains t t.tableSize 0

def hashTableIterHasMore (it : Iterator) : Bool := it.nextEntry != null

/-- The value handed out, none for `HASH_TABLE_NULL`, and the iterator moved past its entry. -/
def hashTableIterNext (t : TableT μ K V) (it : Iterator) : Option (Option V × Iterator) :=
  if it.nextEntry = null then some (none, it)
  else do
    let currentEntry ← t.deref it.nextEntry
    if currentEntry.next = null then
      let chain := it.nextChain + 1
      let it ← scanChains t (t.tableSize - chain) chain
      return (some currentEntry.value, it)
    else return (some currentEntry.value, { it with nextEntry := currentEntry.next })

/-- The entry handed out, null when there is none, and the iterator moved past it. -/
def hashTableIterNextEntry (t : TableT μ K V) (it : Iterator) : Option (Addr × Iterator) :=
  if it.nextEntry = null then some (null, it)
  else do
    let currentEntry ← t.deref it.nextEntry
    if currentEntry.next = null then
      let chain := it.nextChain + 1
      let found ← scanChains t (t.tableSize - chain) chain
      return (it.nextEntry, found)
    else return (it.nextEntry, { it with nextEntry := currentEntry.next })

/-! What the functions of a table rely on, and what its memory looks like. -/

/-- How the functions work on a memory that holds keys and values with their contents, each apart
from the others. -/
structure Ownership {μ K V : Type} (f : Functions μ K V) (α β : Type) [DecidableEq α] where
  Owns : μ → List (K × α) → List (V × β) → Prop
  hash : α → UInt64
  perm : ∀ {c keys keys' values values'}, Owns c keys values → keys.Perm keys' →
    values.Perm values' → Owns c keys' values'
  hashFunc : ∀ {c keys values k s}, Owns c keys values → (k, s) ∈ keys →
    f.hashFunc c k = some (hash s)
  equalFunc : ∀ {c keys values k s k' s'}, Owns c keys values → (k, s) ∈ keys → (k', s') ∈ keys →
    f.equalFunc c k k' = some (decide (s = s'))
  freeKey : ∀ {c k s keys values}, Owns c ((k, s) :: keys) values →
    ∃ c', callFree f.keyFreeFunc c k = some c' ∧ Owns c' keys values
  freeValue : ∀ {c v b keys values}, Owns c keys ((v, b) :: values) →
    ∃ c', callFree f.valueFreeFunc c v = some c' ∧ Owns c' keys values

/-- Where an entry is, the pointers that it holds, and the content of its value. -/
structure Cell (K V β : Type) where
  addr : Addr
  key : K
  value : V
  content : β

/-- The entries of a table under the contents of their keys. -/
abbrev Entries (K α V β : Type) := List (HashTableEntry α (Cell K V β))

variable {α β : Type}

def nodes (c : Entries K α V β) : List (Addr × K × V) :=
  c.map fun e => (e.value.addr, e.value.key, e.value.value)

def addrs (c : Entries K α V β) : List Addr := c.map (·.value.addr)

def ownedKeys (c : Entries K α V β) : List (K × α) := c.map fun e => (e.value.key, e.key)

def ownedValues (c : Entries K α V β) : List (V × β) :=
  c.map fun e => (e.value.value, e.value.content)

def layout (K V : Type) : Layout Addr (EntryNode K V) (K × V) where
  null := null
  next := EntryNode.next
  payload := fun node => (node.key, node.value)

variable [DecidableEq α] {f : Functions μ K V}

/-- The memory of `t` is that of the table `g`; its caller owns keys and values beside those of the
entries. -/
structure Chained (o : Ownership f α β) (t : TableT μ K V) (g : HashTable α (Cell K V β))
    (keys : List (K × α)) (values : List (V × β)) : Prop where
  functions : t.functions = f
  length_table : t.table.length = g.table.length
  tableSize : t.tableSize = g.tableSize
  hashFunc : g.hashFunc = o.hash
  entries : t.entries = g.entries
  primeIndex : t.primeIndex = g.primeIndex
  linked : ∀ i head, t.table[i]? = some head → (layout K V).Linked t.heap head (nodes (g.chain i))
  distinct : (addrs g.contents).Nodup
  owns : o.Owns t.client (ownedKeys g.contents ++ keys) (ownedValues g.contents ++ values)

/-- That table is well formed, and its entries are all there are in the memory. -/
structure Holds (o : Ownership f α β) (t : TableT μ K V) (g : HashTable α (Cell K V β))
    (keys : List (K × α)) (values : List (V × β)) : Prop extends Chained o t g keys values where
  wellFormed : g.WellFormed
  exact : ∀ a, t.heap a ≠ none → a ∈ addrs g.contents

end Redshell.LinkedTable
