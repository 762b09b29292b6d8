import Redshell.AliasMemory

/-! The dictionary in memory does what its calls say on a finite map of names, whatever the
allocator answers. -/
namespace Redshell.AliasMemory

open HashTable
open LinkedQueue (Addr null)
open LinkedTable (Holds Cell Entries TableT Iterator Ahead ownedKeys ownedValues refill refillEntry)

/-- The value of a name, and whether it is in use. -/
abbrev Names := CString → Option (CString × Int)

/-- A table of the entries of the dictionary. -/
abbrev Listed := HashTable CString (Cell Addr Addr (AliasT × CString))

def view (g : Listed) : Names := fun k =>
  (hashTableLookup g k).map fun cell => (cell.content.2, cell.content.1.inUse)

/-- The memory of `t` is that of a dictionary with these names, fewer than `n`; its caller owns keys
and values beside. -/
def Keeps (n : Nat) (t : Table) (names : Names) (keys : List (Addr × CString))
    (values : List (Addr × AliasT × CString)) : Prop :=
  ∃ g, Holds ownership t g keys values ∧ view g = names ∧ g.PrimeSized ∧ g.entries ≤ n

variable {n : Nat} {t t' : Table} {g : Listed} {names : Names} {keys keys' : List (Addr × CString)}
  {values values' : List (Addr × AliasT × CString)} {k p r : Addr} {s v : CString} {m : Grants}

namespace Keeps

theorem perm (h : Keeps n t names keys values) (hk : keys.Perm keys') :
    Keeps n t names keys' values := by
  obtain ⟨g, hholds, hrest⟩ := h
  exact ⟨g, hholds.perm hk, hrest⟩

/-- Strings of the caller change. -/
theorem setClient (h : Keeps n t names keys values) {c : Blocks}
    (hc : ∀ keys₀ values₀, Owned t.client (keys₀ ++ keys) (values₀ ++ values) →
      Owned c (keys₀ ++ keys') (values₀ ++ values)) :
    Keeps n { t with client := c } names keys' values := by
  obtain ⟨g, hholds, hrest⟩ := h
  exact ⟨g, hholds.setClient (hc _ _ hholds.owns), hrest⟩

end Keeps

theorem aliasNew_setAlias (c : Blocks) (record : AliasT) (hr : r ≠ null) :
    (aliasNew c r).aliasAt r = some { value := null, inUse := 0 } ∧
      (aliasNew c r).setAlias r (some record) = c.setAlias r (some record) := by
  rw [aliasNew, if_neg hr, Blocks.aliasAt_eq hr]
  refine ⟨Function.update_self .., ?_⟩
  rw [Blocks.setAlias, Blocks.setAlias, Blocks.setAlias, Function.update_idem]

theorem view_eq_update (h : g.WellFormed) {cell : Cell Addr Addr (AliasT × CString)}
    (hs : (hashTableInsert g s cell).2 = true) :
    view (hashTableInsert g s cell).1 =
      Function.update (view g) s (some (cell.content.2, cell.content.1.inUse)) := by
  funext k
  rw [view, hashTableLookup_insert h hs, Function.update_apply]
  split <;> rfl

/-- The alias is added, unless memory is short; then its strings and its object are lost. -/
theorem addAlias_spec (h : Keeps n t names ((p, v) :: (k, s) :: keys) values) (hn : n < 500000000)
    (hr : m.record ≠ null) (hrecord : t.client.aliases m.record = none)
    (hnode : t.heap m.node = none) :
    ∃ t', addAlias t k p m = some t' ∧
      ((Keeps n t' names ((k, s) :: keys) ((m.record, ⟨p, 0⟩, v) :: values) ∧
          (m.table = false ∨ m.node = null)) ∨
        Keeps (n + 1) t' (Function.update names s (some (v, 0))) keys values) := by
  obtain ⟨g, hholds, rfl, hsized, hle⟩ := h
  obtain ⟨hnew, hset⟩ := aliasNew_setAlias t.client ⟨p, 0⟩ hr
  have howns : Owned t.client ((p, v) :: (ownedKeys g.contents ++ (k, s) :: keys))
      (ownedValues g.contents ++ values) := hholds.owns.perm List.perm_middle (.refl _)
  have howns' := (howns.setAlias hr hrecord 0).perm (.refl _) List.perm_middle.symm
  have hmade := hholds.setClient howns'
  have hadd : addAlias t k p m =
      (LinkedTable.hashTableInsert { t with client := t.client.setAlias m.record (some ⟨p, 0⟩) } k
        m.record m.table m.node).map Prod.fst := by
    rw [addAlias, hnew]
    simp only [Option.bind_eq_bind, Option.bind_some]
    rw [hset]
    exact (Option.map_eq_bind ..).symm
  have h0 : 0 ≤ g.entries := by
    rw [hholds.wellFormed.count]
    exact Int.natCast_nonneg _
  have hlt : g.entries < 500000000 := by omega
  rcases LinkedTable.hashTableInsert_spec hmade m.table hnode with
    ⟨t', g', hfail, h', hperm, hwhy⟩ | ⟨t', a, hdone, h', hinserted⟩
  · obtain ⟨hsized', hshort⟩ := hwhy hsized h0 hlt
    refine ⟨t', by rw [hadd, hfail]; rfl, .inl ⟨⟨g', h', ?_, hsized', ?_⟩, hshort⟩⟩
    · funext s'
      rw [view, view, hashTableLookup_congr h'.wellFormed hholds.wellFormed hperm]
    · rw [h'.wellFormed.count, hperm.length_eq, ← hholds.wellFormed.count]
      exact hle
  · refine ⟨t', by rw [hadd, hdone]; rfl, .inr ⟨_, h', view_eq_update hholds.wellFormed hinserted,
      (hashTableInsert_primeSized hsized h0 hlt).2, ?_⟩⟩
    have hentries := entries_insert_le (k := s) hholds.wellFormed ⟨a, k, m.record, ⟨p, 0⟩, v⟩
    push_cast
    omega

theorem removeAlias_spec (h : Keeps n t names keys values) (hk : (k, s) ∈ keys) :
    ∃ t', removeAlias t k = some t' ∧ Keeps n t' (Function.update names s none) keys values := by
  obtain ⟨g, hholds, rfl, hsized, hle⟩ := h
  obtain ⟨t', hrun, h'⟩ := LinkedTable.hashTableRemove_spec hholds hk
  refine ⟨t', by rw [removeAlias, hrun]; rfl, _, h', ?_, hashTableRemove_primeSized hsized, ?_⟩
  · funext s'
    rw [view, hashTableLookup_remove hholds.wellFormed, Function.update_apply]
    split <;> rfl
  · exact (entries_remove_le hholds.wellFormed).trans hle

/-! The flags. -/

/-- The content of an entry's value with another flag. -/
def flagged (inUse : Int) (e : HashTableEntry CString (Cell Addr Addr (AliasT × CString))) :
    AliasT × CString :=
  ({ e.value.content.1 with inUse := inUse }, e.value.content.2)

/-- The flag of one entry. -/
def flaggedAt (s : CString) (inUse : Int)
    (e : HashTableEntry CString (Cell Addr Addr (AliasT × CString))) : AliasT × CString :=
  if e.key = s then flagged inUse e else e.value.content

theorem map_flaggedAt {c : Entries Addr CString Addr (AliasT × CString)} (hs : s ∉ Chain.keys c)
    (inUse : Int) : c.map (refillEntry (flaggedAt s inUse)) = c := by
  refine (List.map_congr_left fun e he => ?_).trans (List.map_id c)
  have hne : e.key ≠ s := fun hes => hs (hes ▸ List.mem_map_of_mem he)
  rw [refillEntry, flaggedAt, if_neg hne]
  rfl

theorem mem_ownedValues {e : HashTableEntry CString (Cell Addr Addr (AliasT × CString))}
    {c : Entries Addr CString Addr (AliasT × CString)} (h : e ∈ c) :
    (e.value.value, e.value.content) ∈ ownedValues c :=
  List.mem_map_of_mem (f := fun e : HashTableEntry CString (Cell Addr Addr (AliasT × CString)) =>
    (e.value.value, e.value.content)) h

theorem ownedValues_split (front back : Entries Addr CString Addr (AliasT × CString))
    (e : HashTableEntry CString (Cell Addr Addr (AliasT × CString)))
    (values : List (Addr × AliasT × CString)) :
    (ownedValues (front ++ e :: back) ++ values).Perm
      ((e.value.value, e.value.content) :: (ownedValues (front ++ back) ++ values)) :=
  (List.perm_middle.map _).append_right values

/-- The flag of an alias in the table is written. -/
theorem setInUse_spec {cell : Cell Addr Addr (AliasT × CString)}
    (h : Holds ownership t g keys values) (hl : hashTableLookup g s = some cell) (inUse : Int) :
    Holds ownership (setInUse t cell.value cell.content.1 inUse) (refill (flaggedAt s inUse) g) keys
      values := by
  obtain ⟨front, back, hsplit⟩ :=
    List.append_of_mem ((hashTableLookup_eq_some_iff h.wellFormed).mp hl)
  have hnodup := h.wellFormed.nodup
  rw [hsplit, Chain.keys, List.map_append, List.map_cons, List.nodup_middle,
    List.nodup_cons, List.mem_append, not_or] at hnodup
  have howns : Owned t.client (ownedKeys g.contents ++ keys)
      ((cell.value, cell.content) :: (ownedValues (front ++ back) ++ values)) :=
    h.owns.perm (.refl _) (hsplit ▸ ownedValues_split ..)
  refine h.refill _ ((howns.setInUse inUse).perm (.refl _) ?_)
  rw [LinkedTable.contents_refill, hsplit, List.map_append, List.map_cons,
    map_flaggedAt hnodup.1.1, map_flaggedAt hnodup.1.2]
  have hflag :
      (refillEntry (flaggedAt s inUse) ⟨s, cell⟩).value.content = flagged inUse ⟨s, cell⟩ :=
    if_pos rfl
  have hperm := ownedValues_split front back (refillEntry (flaggedAt s inUse) ⟨s, cell⟩) values
  rw [hflag] at hperm
  exact hperm.symm

theorem view_flaggedAt (inUse : Int) :
    view (refill (flaggedAt s inUse) g) =
      Function.update (view g) s ((view g s).map fun name => (name.1, inUse)) := by
  funext s'
  rw [view, LinkedTable.hashTableLookup_refill, Function.update_apply, view, view]
  by_cases hs : s' = s
  · rw [if_pos hs, ← hs, Option.map_map, Option.map_map]
    cases hashTableLookup g s' <;> simp [flaggedAt, flagged]
  · rw [if_neg hs, Option.map_map]
    cases hashTableLookup g s' <;> simp [flaggedAt, hs]

theorem getAlias_spec (h : Keeps n t names keys values) (hk : (k, s) ∈ keys) :
    (∃ v p t', names s = some (v, 0) ∧ getAlias t k = some (p, t') ∧ p ≠ null ∧
        t'.client.stringAt p = some v ∧
        Keeps n t' (Function.update names s (some (v, 1))) keys values) ∨
      getAlias t k = some (null, t) ∧ ∀ v, names s ≠ some (v, 0) := by
  obtain ⟨g, hholds, rfl, hsized, hle⟩ := h
  have hlookup := LinkedTable.hashTableLookup_spec hholds hk
  cases hl : hashTableLookup g s with
  | none =>
    right
    refine ⟨?_, fun v => by simp [view, hl]⟩
    rw [getAlias, hlookup, hl]
    rfl
  | some cell =>
    have hmem := (hashTableLookup_eq_some_iff hholds.wellFormed).mp hl
    have howned := List.mem_append_left values (mem_ownedValues hmem)
    obtain ⟨hne, halias⟩ := hholds.owns.record howned
    have hget : getAlias t k = if cell.content.1.inUse = 0 then
        some (cell.content.1.value, setInUse t cell.value cell.content.1 1)
        else some (null, t) := by
      rw [getAlias, hlookup, hl]
      simp only [Option.bind_eq_bind, Option.bind_some, Option.map_some, Option.getD_some,
        if_neg hne, halias]
      rfl
    have hview : view g s = some (cell.content.2, cell.content.1.inUse) := by rw [view, hl]; rfl
    by_cases h0 : cell.content.1.inUse = 0
    · left
      have hvalue := hholds.owns.value howned
      refine ⟨cell.content.2, cell.content.1.value, setInUse t cell.value cell.content.1 1,
        by rw [hview, h0], by rw [hget, if_pos h0], ?_, hvalue, _, setInUse_spec hholds hl 1, ?_,
        hsized, hle⟩
      · intro hnull
        rw [hnull, Blocks.stringAt, if_pos rfl] at hvalue
        cases hvalue
      · rw [view_flaggedAt, hview, Option.map_some]
    · right
      refine ⟨by rw [hget, if_neg h0], fun v hv => h0 ?_⟩
      exact (Prod.mk.inj (Option.some.inj (hview.symm.trans hv))).2

/-! The walks. -/

theorem length_contents_lt (h : Holds ownership t g keys values) :
    g.contents.length < t.turns := by
  rw [TableT.turns, h.entries, h.wellFormed.count, Int.toNat_natCast]
  exact Nat.lt_succ_self _

/-- The loop clears the flags of the entries that its iterator hands out. -/
theorem releaseLoop_spec {it : Iterator} {keys₀ : List (Addr × CString)}
    {entries : Entries Addr CString Addr (AliasT × CString)} {turns : Nat} {c : Blocks}
    (h : Holds ownership t g keys values) (hahead : Ahead t g it entries)
    (howns : Owned c keys₀ (ownedValues entries ++ values')) (hn : entries.length < turns) :
    ∃ c', releaseLoop turns it { t with client := c } = some { t with client := c' } ∧
      Owned c' keys₀ (ownedValues (entries.map (refillEntry (flagged 0))) ++ values') := by
  induction entries generalizing it turns c values' with
  | nil =>
    obtain ⟨turns, rfl⟩ := Nat.exists_eq_add_one_of_ne_zero (Nat.ne_of_gt hn)
    refine ⟨c, ?_, howns⟩
    rw [releaseLoop, hahead.nil]
    rfl
  | cons e entries ih =>
    obtain ⟨turns, rfl⟩ := Nat.exists_eq_add_one_of_ne_zero (Nat.ne_of_gt (Nat.zero_lt_of_lt hn))
    obtain ⟨hmore, it', link, _, hnext, _, hahead'⟩ := hahead.cons h
    obtain ⟨_, halias⟩ := howns.record List.mem_cons_self
    have hflag := (howns.setInUse 0).perm (.refl _) List.perm_middle.symm
    obtain ⟨c', hrest, howns'⟩ := ih hahead' hflag (Nat.lt_of_succ_lt_succ hn)
    refine ⟨c', ?_, howns'.perm (.refl _) List.perm_middle⟩
    rw [releaseLoop, if_pos hmore, LinkedTable.hashTableIterNext_setClient, hnext]
    simp only [Option.bind_eq_bind, Option.bind_some, Option.getD_some, halias]
    exact hrest

theorem releaseAliases_spec (h : Keeps n t names keys values) :
    ∃ t', releaseAliases t = some t' ∧
      Keeps n t' (fun k => (names k).map fun name => (name.1, 0)) keys values := by
  obtain ⟨g, hholds, rfl, hsized, hle⟩ := h
  obtain ⟨it, hit, hahead⟩ := LinkedTable.hashTableIterate_spec hholds
  obtain ⟨c, hrun, howns⟩ :=
    releaseLoop_spec hholds hahead hholds.owns (length_contents_lt hholds)
  refine ⟨{ t with client := c }, ?_, _, hholds.refill (flagged 0) ?_, ?_, hsized, hle⟩
  · rw [releaseAliases, hit]
    exact hrun
  · rw [LinkedTable.contents_refill]
    exact howns
  · funext k
    rw [view, LinkedTable.hashTableLookup_refill, Option.map_map, view, Option.map_map]
    rfl

/-- The line of an entry. -/
def line (e : HashTableEntry CString (Cell Addr Addr (AliasT × CString))) : List UInt8 :=
  e.key ++ bytes "='" ++ e.value.content.2 ++ bytes "'\n"

theorem printLoop_spec {it : Iterator} {entries : Entries Addr CString Addr (AliasT × CString)}
    {turns : Nat} (h : Holds ownership t g keys values) (hahead : Ahead t g it entries)
    (hsub : entries ⊆ g.contents) (hn : entries.length < turns) :
    printLoop t turns it = some (entries.flatMap line) := by
  induction entries generalizing it turns with
  | nil =>
    obtain ⟨turns, rfl⟩ := Nat.exists_eq_add_one_of_ne_zero (Nat.ne_of_gt hn)
    rw [printLoop, hahead.nil]
    rfl
  | cons e entries ih =>
    obtain ⟨turns, rfl⟩ := Nat.exists_eq_add_one_of_ne_zero (Nat.ne_of_gt (Nat.zero_lt_of_lt hn))
    obtain ⟨hmore, it', link, hnext, _, hderef, hahead'⟩ := hahead.cons h
    obtain ⟨he, hsub⟩ := List.cons_subset.mp hsub
    have howned := List.mem_append_left values (mem_ownedValues he)
    obtain ⟨_, halias⟩ := h.owns.record howned
    have hvalue := h.owns.value howned
    have hkey := h.owns.stringAt (List.mem_append_left keys (LinkedTable.mem_ownedKeys he))
    have hrest := ih hahead' hsub (Nat.lt_of_succ_lt_succ hn)
    rw [printLoop, if_pos hmore, hnext]
    simp only [Option.bind_eq_bind, Option.bind_some, hderef, halias, hkey, hvalue, hrest]
    rfl

/-- Every alias is printed once. -/
theorem printAliases_spec (h : Keeps n t names keys values) :
    ∃ listing : List (CString × CString),
      printAliases t =
        some (listing.flatMap fun e => e.1 ++ bytes "='" ++ e.2 ++ bytes "'\n") ∧
      (listing.map Prod.fst).Nodup ∧
      ∀ k v, (k, v) ∈ listing ↔ ∃ inUse, names k = some (v, inUse) := by
  obtain ⟨g, hholds, rfl, _, _⟩ := h
  obtain ⟨it, hit, hahead⟩ := LinkedTable.hashTableIterate_spec hholds
  refine ⟨g.contents.map fun e => (e.key, e.value.content.2), ?_, ?_, fun k v => ?_⟩
  · rw [printAliases, hit, List.flatMap_map]
    exact printLoop_spec hholds hahead (List.Subset.refl _) (length_contents_lt hholds)
  · rw [List.map_map]
    exact hholds.wellFormed.nodup
  · rw [List.mem_map]
    constructor
    · rintro ⟨e, he, hpair⟩
      cases hpair
      have hl := (hashTableLookup_eq_some_iff hholds.wellFormed).mpr he
      exact ⟨e.value.content.1.inUse, by rw [view, hl]; rfl⟩
    · rintro ⟨inUse, hname⟩
      obtain ⟨cell, hl, hpair⟩ := Option.map_eq_some_iff.mp hname
      cases hpair
      exact ⟨⟨k, cell⟩, (hashTableLookup_eq_some_iff hholds.wellFormed).mp hl, rfl⟩

/-! The first table, and what is left when the last one is freed. -/

theorem initializeAliases_spec :
    ∃ t, initializeAliases { strings := fun _ => none, aliases := fun _ => none } true = some t ∧
      Keeps 0 t (fun _ => none) [] [] := by
  obtain ⟨g, hnew, hw, hsized, hempty⟩ := hashTableNew_spec
    (K := CString) (V := Cell Addr Addr (AliasT × CString)) Redshell.stringHash
  let t₀ : Table :=
    { client := { strings := fun _ => none, aliases := fun _ => none }, heap := fun _ => none,
      table := [], tableSize := 0, functions := functions, entries := 0, primeIndex := 0 }
  let g₀ : Listed :=
    { table := [], tableSize := 0, hashFunc := Redshell.stringHash, entries := 0, primeIndex := 0 }
  have h₀ : LinkedTable.Chained ownership t₀ g₀ [] [] :=
    ⟨rfl, rfl, rfl, rfl, rfl, rfl, fun i head hhead => (by cases hhead), List.nodup_nil,
      ⟨Cells.nil null, Cells.nil null⟩⟩
  rcases LinkedTable.hashTableAllocateTable_spec h₀ true with ⟨_, hwhy⟩ |
      ⟨t, g', ht, _, hg', hheap, hchained⟩
  · rcases hwhy with hno | hno
    · cases hno
    · cases hno.symm.trans hnew
  · cases hg'.symm.trans hnew
    refine ⟨t, ht, g, ⟨hchained, hw, fun a ha => absurd ?_ ha⟩, ?_, hsized, ?_⟩
    · rw [hheap]
    · funext k
      rw [view, (hashTableLookup_eq_none_iff hw).mpr (by simp [hempty, Chain.keys])]
      rfl
    · rw [hw.count, hempty]
      exact le_refl _

theorem destroyAliases_spec (h : Keeps n t names keys values) :
    ∃ c, destroyAliases t = some (c, fun _ => none) ∧ Owned c keys values := by
  obtain ⟨g, hholds, _⟩ := h
  exact LinkedTable.hashTableFree_spec hholds

/-- How many strings, objects and entries are allocated. -/
theorem Keeps.allocated (h : Keeps n t names keys values) :
    {p | t.client.strings p ≠ none}.ncard =
        2 * {k | names k ≠ none}.ncard + keys.length + values.length ∧
      {p | t.client.aliases p ≠ none}.ncard = {k | names k ≠ none}.ncard + values.length ∧
      {p | t.heap p ≠ none}.ncard = {k | names k ≠ none}.ncard := by
  obtain ⟨g, hholds, rfl, _⟩ := h
  have hlive : {k | view g k ≠ none} = ((Chain.keys g.contents).toFinset : Set CString) := by
    ext k
    rw [Finset.mem_coe, List.mem_toFinset, ← not_iff_not,
      ← hashTableLookup_eq_none_iff hholds.wellFormed]
    simp [view]
  have hcount : {k | view g k ≠ none}.ncard = g.contents.length := by
    rw [hlive, Set.ncard_coe_finset, List.toFinset_card_of_nodup hholds.wellFormed.nodup,
      Chain.keys, List.length_map]
  have hheap : {p | t.heap p ≠ none} = ((LinkedTable.addrs g.contents).toFinset : Set Addr) := by
    ext p
    rw [Finset.mem_coe, List.mem_toFinset]
    exact ⟨hholds.exact p, fun hp hnone => hholds.fresh hnone hp⟩
  have hstrings := hholds.owns.strings.ncard
  have haliases := hholds.owns.aliases.ncard
  rw [hcount]
  refine ⟨?_, ?_, ?_⟩
  · rw [hstrings]
    simp only [texts, ownedKeys, ownedValues, List.length_append, List.length_map]
    omega
  · rw [haliases]
    simp only [records, ownedValues, List.length_append, List.length_map]
  · rw [hheap, Set.ncard_coe_finset, List.toFinset_card_of_nodup hholds.distinct,
      LinkedTable.addrs, List.length_map]

end Redshell.AliasMemory
