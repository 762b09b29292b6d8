import Redshell.LinkedTableRun

/-! The iterator over the table in memory hands out the entries that the iterator over the table of
entries does, and the contents of their values can change under it. -/
namespace Redshell.LinkedTable

open HashTable
open LinkedQueue (Addr null)

variable {μ K V α β : Type} {t : TableT μ K V} {g : HashTable α (Cell K V β)} {it : Iterator}
  {list next : HashTableIterator α (Cell K V β)} {e : HashTableEntry α (Cell K V β)}

/-- Both iterators are at the same entry of the same chain. -/
structure At (t : TableT μ K V) (it : Iterator) (list : HashTableIterator α (Cell K V β)) :
    Prop where
  nextChain : it.nextChain = list.nextChain
  linked : (layout K V).Linked t.heap it.nextEntry (nodes list.nextEntry)

theorem At.hasMore (h : At t it list) :
    hashTableIterHasMore it = Redshell.hashTableIterHasMore list := by
  cases hn : list.nextEntry with
  | nil =>
    have hnull : it.nextEntry = null := linked_nil (hn ▸ h.linked)
    simp [hashTableIterHasMore, Redshell.hashTableIterHasMore, hn, hnull]
  | cons e c =>
    have hne : it.nextEntry ≠ null := (linked_cons (hn ▸ h.linked)).2.1
    simp [hashTableIterHasMore, Redshell.hashTableIterHasMore, hn, hne]

/-! The contents of the values change, and neither an entry nor a pointer does. -/

section Refill

variable (φ : HashTableEntry α (Cell K V β) → β)

def refillEntry (e : HashTableEntry α (Cell K V β)) : HashTableEntry α (Cell K V β) :=
  { e with value := { e.value with content := φ e } }

def refill (g : HashTable α (Cell K V β)) : HashTable α (Cell K V β) :=
  { g with table := g.table.map fun c => c.map (refillEntry φ) }

theorem contents_refill : (refill φ g).contents = g.contents.map (refillEntry φ) :=
  (List.map_flatten ..).symm

theorem chain_refill (i : Nat) : (refill φ g).chain i = (g.chain i).map (refillEntry φ) := by
  rw [HashTable.chain, HashTable.chain, refill, List.getD_eq_getElem?_getD,
    List.getD_eq_getElem?_getD, List.getElem?_map]
  cases g.table[i]? <;> rfl

theorem keys_refill (c : Entries K α V β) : Chain.keys (c.map (refillEntry φ)) = Chain.keys c :=
  List.map_map ..

theorem nodes_refill (c : Entries K α V β) : nodes (c.map (refillEntry φ)) = nodes c :=
  List.map_map ..

theorem addrs_refill (c : Entries K α V β) : addrs (c.map (refillEntry φ)) = addrs c :=
  List.map_map ..

theorem ownedKeys_refill (c : Entries K α V β) :
    ownedKeys (c.map (refillEntry φ)) = ownedKeys c := List.map_map ..

theorem refill_wellFormed (h : g.WellFormed) : (refill φ g).WellFormed where
  length_table := (List.length_map _).trans h.length_table
  tableSize_pos := h.tableSize_pos
  placed := by
    intro i e he
    change e ∈ (refill φ g).chain i at he
    rw [chain_refill] at he
    obtain ⟨e', he', rfl⟩ := List.mem_map.mp he
    exact h.placed i e' he'
  nodup := by rw [contents_refill, keys_refill]; exact h.nodup
  count := by rw [contents_refill, List.length_map]; exact h.count

end Refill

/-! The iterators. -/

/-- They read the chains and the entries only. -/
theorem scanChains_setClient (client : μ) (n chain : Nat) :
    scanChains { t with client := client } n chain = scanChains t n chain := by
  induction n generalizing chain with
  | zero => rfl
  | succ n ih =>
    rw [scanChains, scanChains]
    simp only [ih]

theorem hashTableIterNext_setClient (client : μ) (it : Iterator) :
    hashTableIterNext { t with client := client } it = hashTableIterNext t it := by
  rw [hashTableIterNext, hashTableIterNext]
  simp only [scanChains_setClient]
  rfl

variable [DecidableEq α] {f : Functions μ K V} {o : Ownership f α β} {keys : List (K × α)}
  {values : List (V × β)}

/-- The searches for the next chain stop at the same one. -/
theorem scanChains_at (h : Chained o t g keys values) (n chain : Nat)
    (hn : n ≤ g.table.length - chain) :
    ∃ it, scanChains t n chain = some it ∧
      At t it { hashTable := g, nextEntry := (Redshell.scanChains g n chain).1,
                nextChain := (Redshell.scanChains g n chain).2 } := by
  induction n generalizing chain with
  | zero => exact ⟨_, rfl, rfl, rfl⟩
  | succ n ih =>
    obtain ⟨head, hhead, hlinked⟩ := h.exists_head (i := chain) (by omega)
    cases hc : g.chain chain with
    | nil =>
      have hnull : head = null := linked_nil (hc ▸ hlinked)
      obtain ⟨it, hscan, hat⟩ := ih (chain + 1) (by omega)
      refine ⟨it, ?_, ?_⟩
      · rw [scanChains, hhead]
        exact (if_pos hnull).trans hscan
      · simpa only [Redshell.scanChains, hc] using hat
    | cons e c =>
      have hne : head ≠ null := (linked_cons (hc ▸ hlinked)).2.1
      refine ⟨{ nextEntry := head, nextChain := chain }, ?_, ?_⟩
      · rw [scanChains, hhead]
        exact if_neg hne
      · simp only [Redshell.scanChains, hc]
        exact ⟨rfl, hc ▸ hlinked⟩

theorem hashTableIterate_at (h : Holds o t g keys values) :
    ∃ it, hashTableIterate t = some it ∧ At t it (Redshell.hashTableIterate g) := by
  have hle : g.tableSize ≤ g.table.length - 0 := h.wellFormed.length_table.ge
  obtain ⟨it, hscan, hat⟩ := scanChains_at h.toChained g.tableSize 0 hle
  exact ⟨it, by rw [hashTableIterate, h.tableSize, hscan], hat⟩

/-- What an iterator does at an entry. -/
theorem hashTableIter_deref {current : EntryNode K V} (hne : it.nextEntry ≠ null)
    (hderef : t.deref it.nextEntry = some current) :
    hashTableIterNextEntry t it =
      (if current.next = null then
        scanChains t (t.tableSize - (it.nextChain + 1)) (it.nextChain + 1)
      else some { it with nextEntry := current.next }).map fun next => (it.nextEntry, next) := by
  rw [hashTableIterNextEntry, if_neg hne, hderef]
  simp only [Option.bind_eq_bind, Option.bind_some]
  split
  · exact (Option.map_eq_bind ..).symm
  · rfl

/-- The entry handed out is the one that the iterator was at, and both iterators move alike. -/
theorem hashTableIterNextEntry_at (h : Holds o t g keys values) (hg : list.hashTable = g)
    (hat : At t it list) (hnext : Redshell.hashTableIterNextEntry list = (some e, next)) :
    ∃ it' link, hashTableIterNextEntry t it = some (e.value.addr, it') ∧ At t it' next ∧
      t.deref e.value.addr = some ⟨e.value.key, e.value.value, link⟩ := by
  obtain ⟨hashTable, nextEntry, nextChain⟩ := list
  obtain ⟨hchain, hlinked⟩ := hat
  subst hg
  cases nextEntry with
  | nil => cases hnext
  | cons e₁ c =>
    obtain ⟨haddr, hne, link, hnode, htail⟩ := linked_cons hlinked
    have hderef : t.deref it.nextEntry = some ⟨e₁.value.key, e₁.value.value, link⟩ :=
      (deref_eq hne).trans hnode
    have hmove := hashTableIter_deref hne hderef
    rw [haddr] at hderef
    cases c with
    | nil =>
      cases hnext
      obtain ⟨it', hscan, hat'⟩ := scanChains_at h.toChained
        (hashTable.tableSize - (nextChain + 1)) (nextChain + 1)
        (by rw [h.wellFormed.length_table])
      rw [if_pos (linked_nil htail), h.tableSize, hchain, hscan, Option.map_some, haddr] at hmove
      exact ⟨it', link, hmove, hat', hderef⟩
    | cons e₂ c =>
      cases hnext
      rw [if_neg (linked_cons htail).2.1, Option.map_some, haddr] at hmove
      exact ⟨_, link, hmove, ⟨hchain, htail⟩, hderef⟩

/-- The copy of the iterator that hands out values moves as the other one. -/
theorem hashTableIterNext_eq {next : Iterator} {p : Addr} {current : EntryNode K V}
    (h : hashTableIterNextEntry t it = some (p, next)) (hderef : t.deref p = some current) :
    hashTableIterNext t it = some (some current.value, next) := by
  by_cases hne : it.nextEntry = null
  · rw [hashTableIterNextEntry, if_pos hne] at h
    cases h
    rw [TableT.deref, if_pos rfl] at hderef
    cases hderef
  · cases hentry : t.deref it.nextEntry with
    | none =>
      rw [hashTableIterNextEntry, if_neg hne, hentry] at h
      cases h
    | some entry =>
      rw [hashTableIter_deref hne hentry, Option.map_eq_some_iff] at h
      obtain ⟨_, hmove, hpair⟩ := h
      cases hpair
      cases hentry.symm.trans hderef
      rw [hashTableIterNext, if_neg hne, hentry]
      simp only [Option.bind_eq_bind, Option.bind_some]
      split at hmove
      · rw [if_pos ‹_›, hmove]
        rfl
      · rw [if_neg ‹_›]
        cases hmove
        rfl

/-- The iterator has these entries still to hand out. -/
def Ahead (t : TableT μ K V) (g : HashTable α (Cell K V β)) (it : Iterator)
    (entries : Entries K α V β) : Prop :=
  ∃ list : HashTableIterator α (Cell K V β),
    list.hashTable = g ∧ list.Valid ∧ At t it list ∧ list.remaining = entries

theorem hashTableIterate_spec (h : Holds o t g keys values) :
    ∃ it, hashTableIterate t = some it ∧ Ahead t g it g.contents := by
  obtain ⟨it, hit, hat⟩ := hashTableIterate_at h
  obtain ⟨hvalid, hremaining⟩ := Redshell.hashTableIterate_spec h.wellFormed.length_table
  exact ⟨it, hit, _, rfl, hvalid, hat, hremaining⟩

omit [DecidableEq α] in
theorem Ahead.nil (h : Ahead t g it []) : hashTableIterHasMore it = false := by
  obtain ⟨list, rfl, hvalid, hat, hremaining⟩ := h
  rw [hat.hasMore]
  exact Bool.eq_false_iff.mpr (mt (hashTableIterHasMore_iff hvalid).mp (not_not.mpr hremaining))

/-- One turn of a loop: both copies of the iterator hand out the next entry. -/
theorem Ahead.cons {entries : Entries K α V β} (h : Holds o t g keys values)
    (hahead : Ahead t g it (e :: entries)) :
    hashTableIterHasMore it = true ∧ ∃ it' link,
      hashTableIterNextEntry t it = some (e.value.addr, it') ∧
      hashTableIterNext t it = some (some e.value.value, it') ∧
      t.deref e.value.addr = some ⟨e.value.key, e.value.value, link⟩ ∧ Ahead t g it' entries := by
  obtain ⟨list, hg, hvalid, hat, hremaining⟩ := hahead
  have hmore := (hashTableIterHasMore_iff hvalid).mpr (by simp [hremaining])
  obtain ⟨hfst, hvalid', htail, hg'⟩ := hashTableIterNextEntry_spec hvalid
  rw [hremaining] at hfst htail
  obtain ⟨it', link, hnext, hat', hderef⟩ := hashTableIterNextEntry_at h hg hat (Prod.ext hfst rfl)
  refine ⟨hat.hasMore.trans hmore, it', link, hnext, hashTableIterNext_eq hnext hderef, hderef, ?_⟩
  exact ⟨_, hg'.trans hg, hvalid', hat', htail⟩

/-! A table after the contents of its values changed. -/

section Refill

variable (φ : HashTableEntry α (Cell K V β) → β)

theorem hashTableLookup_refill (s : α) :
    Redshell.hashTableLookup (refill φ g) s =
      (Redshell.hashTableLookup g s).map fun cell => { cell with content := φ ⟨s, cell⟩ } := by
  have hfind : ∀ c : Entries K α V β, Chain.find s (c.map (refillEntry φ)) =
      (Chain.find s c).map fun cell => { cell with content := φ ⟨s, cell⟩ } := by
    intro c
    induction c with
    | nil => rfl
    | cons e c ih =>
      by_cases hs : e.key = s
      · subst hs
        simp [Chain.find, refillEntry]
      · simpa [Chain.find, refillEntry, hs] using ih
  rw [Redshell.hashTableLookup, chain_refill, hfind]
  rfl

/-- The memory afterwards holds the new contents. -/
theorem Holds.refill (h : Holds o t g keys values) {client : μ}
    (howns : o.Owns client (ownedKeys g.contents ++ keys)
      (ownedValues (refill φ g).contents ++ values)) :
    Holds o { t with client := client } (refill φ g) keys values where
  functions := h.functions
  length_table := h.length_table.trans (List.length_map _).symm
  tableSize := h.tableSize
  hashFunc := h.hashFunc
  entries := h.entries
  primeIndex := h.primeIndex
  linked i head hhead := by
    rw [chain_refill, nodes_refill]
    exact h.linked i head hhead
  distinct := by
    rw [contents_refill, addrs_refill]
    exact h.distinct
  owns := by
    rw [contents_refill, ownedKeys_refill, ← contents_refill]
    exact howns
  wellFormed := refill_wellFormed φ h.wellFormed
  exact a ha := by
    rw [contents_refill, addrs_refill]
    exact h.exact a ha

end Refill

end Redshell.LinkedTable
