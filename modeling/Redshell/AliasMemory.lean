import Redshell.Builtins
import Redshell.Cells
import Redshell.LinkedTableRelease
import Redshell.LinkedTableWalk

/-! The alias dictionary of alias.c in memory: its strings, its `alias_t` objects and its table. -/
namespace Redshell.AliasMemory

open LinkedQueue (Addr null)
open LinkedTable (TableT Functions Iterator)

/-- `alias_t` -/
structure AliasT where
  value : Addr
  inUse : Int

/-- The strings and the `alias_t` objects that are allocated. -/
structure Blocks where
  strings : Addr → Option CString
  aliases : Addr → Option AliasT

namespace Blocks

/-- The string at a pointer; a NULL or a freed one refers to nothing. -/
def stringAt (c : Blocks) (p : Addr) : Option CString := if p = null then none else c.strings p

def aliasAt (c : Blocks) (p : Addr) : Option AliasT := if p = null then none else c.aliases p

def setString (c : Blocks) (p : Addr) (s : Option CString) : Blocks :=
  { c with strings := Function.update c.strings p s }

def setAlias (c : Blocks) (p : Addr) (a : Option AliasT) : Blocks :=
  { c with aliases := Function.update c.aliases p a }

end Blocks

/-- `free` of a string: NULL is let pass, and what is not allocated is not. -/
def free (c : Blocks) (p : Addr) : Option Blocks :=
  if p = null then some c else (c.strings p).map fun _ => c.setString p none

/-- The copy that `strdup` makes where `malloc` returned `p`. -/
def strdup (c : Blocks) (p : Addr) (s : CString) : Blocks :=
  if p = null then c else c.setString p (some s)

def stringHash (c : Blocks) (p : Addr) : Option UInt64 := (c.stringAt p).map Redshell.stringHash

def stringEqual (c : Blocks) (p q : Addr) : Option Bool := do
  return (← c.stringAt p) == (← c.stringAt q)

/-- The `assert` fails on NULL. -/
def aliasFree (c : Blocks) (data : Addr) : Option Blocks := do
  let a ← c.aliasAt data
  let c ← free c a.value
  return c.setAlias data none

def functions : Functions Blocks Addr Addr where
  hashFunc := stringHash
  equalFunc := stringEqual
  keyFreeFunc := some free
  valueFreeFunc := some aliasFree

abbrev Table := TableT Blocks Addr Addr

/-- `malloc` returns `p` for the object. -/
def aliasNew (c : Blocks) (p : Addr) : Blocks :=
  if p = null then c else c.setAlias p (some { value := null, inUse := 0 })

/-- What the allocator answers: a pointer for each `malloc` of `alias`, and whether it meets the
`calloc` of a larger table. -/
structure Grants where
  copy : Addr
  key : Addr
  value : Addr
  record : Addr
  node : Addr
  table : Bool

/-- The result of the insertion is not looked at. -/
def addAlias (t : Table) (key value : Addr) (m : Grants) : Option Table := do
  let c := aliasNew t.client m.record
  let a ← c.aliasAt m.record
  let c := c.setAlias m.record (some { a with value := value })
  let (t, _) ← LinkedTable.hashTableInsert { t with client := c } key m.record m.table m.node
  return t

def removeAlias (t : Table) (key : Addr) : Option Table := do
  let (t, _) ← LinkedTable.hashTableRemove t key
  return t

/-- `alias->in_use = inUse`, for what the pointer refers to. -/
def setInUse (t : Table) (p : Addr) (a : AliasT) (inUse : Int) : Table :=
  { t with client := t.client.setAlias p (some { a with inUse := inUse }) }

/-- The value of an alias that is not in use, null for any other. -/
def getAlias (t : Table) (key : Addr) : Option (Addr × Table) := do
  let p := (← LinkedTable.hashTableLookup t key).getD null
  if p = null then return (null, t)
  else
    let a ← t.client.aliasAt p
    if a.inUse = 0 then return (a.value, setInUse t p a 1) else return (null, t)

/-- The loop of `releaseAliases`, for at most so many turns. -/
def releaseLoop : Nat → Iterator → Table → Option Table
  | 0, _, _ => none
  | n + 1, it, t =>
    if LinkedTable.hashTableIterHasMore it then do
      let (value, it) ← LinkedTable.hashTableIterNext t it
      let p := value.getD null
      let a ← t.client.aliasAt p
      releaseLoop n it (setInUse t p a 0)
    else some t

def releaseAliases (t : Table) : Option Table := do
  let it ← LinkedTable.hashTableIterate t
  releaseLoop t.turns it t

/-- The loop of `printAliases`, for at most so many turns: what it writes. -/
def printLoop (t : Table) : Nat → Iterator → Option (List UInt8)
  | 0, _ => none
  | n + 1, it =>
    if LinkedTable.hashTableIterHasMore it then do
      let (entry, it) ← LinkedTable.hashTableIterNextEntry t it
      let entry ← t.deref entry
      let a ← t.client.aliasAt entry.value
      let key ← t.client.stringAt entry.key
      let value ← t.client.stringAt a.value
      let rest ← printLoop t n it
      return key ++ bytes "='" ++ value ++ bytes "'\n" ++ rest
    else some []

def printAliases (t : Table) : Option (List UInt8) := do
  let it ← LinkedTable.hashTableIterate t
  printLoop t t.turns it

def initializeAliases (c : Blocks) (granted : Bool) : Option Table :=
  LinkedTable.hashTableNew c (fun _ => none) functions granted

/-- The memory that is left. -/
def destroyAliases (t : Table) :
    Option (Blocks × (Addr → Option (LinkedTable.EntryNode Addr Addr))) :=
  LinkedTable.hashTableFree t

/-- The status, what is printed and the dictionary after `alias`; `argv` is its first argument, none
for the NULL in its place. -/
def cmdAlias (t : Table) (argv : Option Addr) (m : Grants) : Option (Int × List UInt8 × Table) :=
  match argv with
  | none => do
    let printed ← printAliases t
    return (0, printed, t)
  | some word => do
    let c := strdup t.client m.copy (← t.client.stringAt word)
    let copy ← c.stringAt m.copy
    match strstr copy isEquals with
    | none =>
      let c ← free c m.copy
      return (-1, [], { t with client := c })
    | some value =>
      -- The `=` becomes the end of the copy, and what comes after it the value.
      let c := c.setString m.copy (some (strncpy copy (copy.length - value.length)))
      let c := strdup c m.key (← c.stringAt m.copy)
      let c := strdup c m.value value.tail
      let c ← free c m.copy
      let t ← addAlias { t with client := c } m.key m.value m
      return (0, [], t)

/-- The status and the dictionary after `unalias`. -/
def cmdUnalias (t : Table) (argv : Option Addr) : Option (Int × Table) :=
  match argv with
  | none => some (-1, t)
  | some word => do
    let t ← removeAlias t word
    return (0, t)

/-! What the memory holds. -/

/-- The strings of these keys and values. -/
def texts (keys : List (Addr × CString)) (values : List (Addr × AliasT × CString)) :
    List (Addr × CString) :=
  keys ++ values.map fun v => (v.2.1.value, v.2.2)

/-- The objects of these values. -/
def records (values : List (Addr × AliasT × CString)) : List (Addr × AliasT) :=
  values.map fun v => (v.1, v.2.1)

/-- These keys and values are what is allocated. -/
structure Owned (c : Blocks) (keys : List (Addr × CString))
    (values : List (Addr × AliasT × CString)) : Prop where
  strings : Cells null c.strings (texts keys values)
  aliases : Cells null c.aliases (records values)

variable {c c' : Blocks} {keys keys' : List (Addr × CString)}
  {values values' : List (Addr × AliasT × CString)} {p q r : Addr} {s s' : CString} {a : AliasT}
  {n : Int}

theorem Blocks.stringAt_eq (h : p ≠ null) : c.stringAt p = c.strings p := if_neg h

theorem Blocks.aliasAt_eq (h : p ≠ null) : c.aliasAt p = c.aliases p := if_neg h

theorem texts_cons_perm :
    (texts keys ((r, a, s) :: values)).Perm ((a.value, s) :: texts keys values) := List.perm_middle

namespace Owned

theorem perm (h : Owned c keys values) (hk : keys.Perm keys') (hv : values.Perm values') :
    Owned c keys' values' where
  strings := h.strings.perm (hk.append (hv.map _))
  aliases := h.aliases.perm (hv.map _)

theorem stringAt (h : Owned c keys values) (hk : (p, s) ∈ keys) : c.stringAt p = some s := by
  obtain ⟨hne, hp⟩ := h.strings.get (List.mem_append_left _ hk)
  rw [Blocks.stringAt_eq hne, hp]

theorem record (h : Owned c keys values) (hv : (r, a, s) ∈ values) :
    r ≠ null ∧ c.aliasAt r = some a := by
  obtain ⟨hne, hr⟩ := h.aliases.get (List.mem_map_of_mem (f := fun v => (v.1, v.2.1)) hv)
  exact ⟨hne, (Blocks.aliasAt_eq hne).trans hr⟩

theorem value (h : Owned c keys values) (hv : (r, a, s) ∈ values) :
    c.stringAt a.value = some s := by
  obtain ⟨hne, hp⟩ := h.strings.get
    (List.mem_append_right _ (List.mem_map_of_mem (f := fun v => (v.2.1.value, v.2.2)) hv))
  rw [Blocks.stringAt_eq hne, hp]

/-- A string of the caller is freed. -/
theorem free (h : Owned c ((p, s) :: keys) values) :
    AliasMemory.free c p = some (c.setString p none) ∧ Owned (c.setString p none) keys values := by
  obtain ⟨hne, hp⟩ := h.strings.get List.mem_cons_self
  refine ⟨?_, h.strings.remove, h.aliases⟩
  rw [AliasMemory.free, if_neg hne, hp]
  rfl

/-- A copy of a string is the caller's. -/
theorem strdup (h : Owned c keys values) (hne : p ≠ null) (hfree : c.strings p = none) :
    Owned (AliasMemory.strdup c p s) ((p, s) :: keys) values := by
  rw [AliasMemory.strdup, if_neg hne]
  exact ⟨h.strings.insert hne hfree, h.aliases⟩

theorem setString (h : Owned c ((p, s) :: keys) values) (s' : CString) :
    Owned (c.setString p (some s')) ((p, s') :: keys) values :=
  ⟨h.strings.write, h.aliases⟩

/-- A value is freed, and its object. -/
theorem aliasFree (h : Owned c keys ((r, a, s) :: values)) :
    ∃ c', AliasMemory.aliasFree c r = some c' ∧ Owned c' keys values := by
  obtain ⟨hr, ha⟩ := h.record List.mem_cons_self
  have hstrings := h.strings.perm texts_cons_perm
  obtain ⟨hne, hp⟩ := hstrings.get List.mem_cons_self
  have hfree : AliasMemory.free c a.value = some (c.setString a.value none) := by
    rw [AliasMemory.free, if_neg hne, hp]
    rfl
  refine ⟨(c.setString a.value none).setAlias r none, ?_, hstrings.remove, h.aliases.remove⟩
  rw [AliasMemory.aliasFree, ha]
  simp only [Option.bind_eq_bind, Option.bind_some, hfree]
  rfl

/-- A string of the caller becomes the value of a new object. -/
theorem setAlias (h : Owned c ((p, s) :: keys) values) (hne : r ≠ null)
    (hfree : c.aliases r = none) (n : Int) :
    Owned (c.setAlias r (some ⟨p, n⟩)) keys ((r, ⟨p, n⟩, s) :: values) :=
  ⟨h.strings.perm (texts_cons_perm (a := ⟨p, n⟩)).symm, h.aliases.insert hne hfree⟩

/-- The flag of an alias is written. -/
theorem setInUse (h : Owned c keys ((r, a, s) :: values)) (n : Int) :
    Owned (c.setAlias r (some { a with inUse := n })) keys ((r, { a with inUse := n }, s) :: values)
    where
  strings := h.strings
  aliases := h.aliases.write

end Owned

/-- The functions of the dictionary work on owned strings and objects. -/
def ownership : LinkedTable.Ownership functions CString (AliasT × CString) where
  Owns := Owned
  hash := Redshell.stringHash
  perm := Owned.perm
  hashFunc h hk := by
    simp [functions, stringHash, h.stringAt hk]
  equalFunc h hk hk' := by
    simp [functions, stringEqual, h.stringAt hk, h.stringAt hk', beq_eq_decide]
  freeKey h := ⟨_, h.free⟩
  freeValue h := h.aliasFree

end Redshell.AliasMemory
