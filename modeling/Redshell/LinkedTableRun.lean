import Redshell.LinkedTable

/-! The operations of the table in memory do what they do on the table of entries. -/
namespace Redshell.LinkedTable

open HashTable
open LinkedQueue (Addr null)

variable {μ K V α β : Type}

theorem linked_nil {heap : Addr → Option (EntryNode K V)} {p : Addr}
    (h : (layout K V).Linked heap p (nodes ([] : Entries K α V β))) : p = null := h

/-- The first entry of a chain in memory. -/
theorem linked_cons {heap : Addr → Option (EntryNode K V)} {p : Addr} {c : Entries K α V β}
    {e : HashTableEntry α (Cell K V β)} (h : (layout K V).Linked heap p (nodes (e :: c))) :
    p = e.value.addr ∧ p ≠ null ∧ ∃ next, heap p = some ⟨e.value.key, e.value.value, next⟩ ∧
      (layout K V).Linked heap next (nodes c) := by
  obtain ⟨rfl, hne, ⟨key, value, next⟩, hnode, hpayload, hnext⟩ := h
  obtain ⟨rfl, rfl⟩ := Prod.mk.inj hpayload
  exact ⟨rfl, hne, next, hnode, hnext⟩

/-- An entry in the middle of a chain in memory. -/
theorem linked_get {heap : Addr → Option (EntryNode K V)} {p : Addr} {front back : Entries K α V β}
    {e : HashTableEntry α (Cell K V β)}
    (h : (layout K V).Linked heap p (nodes (front ++ e :: back))) :
    e.value.addr ≠ null ∧ ∃ next, heap e.value.addr = some ⟨e.value.key, e.value.value, next⟩ ∧
      (layout K V).Linked heap next (nodes back) := by
  rw [nodes, List.map_append, List.map_cons] at h
  obtain ⟨hne, ⟨key, value, next⟩, hnode, hpayload, hback⟩ := h.get
  obtain ⟨rfl, rfl⟩ := Prod.mk.inj hpayload
  exact ⟨hne, next, hnode, hback⟩

variable {t t' : TableT μ K V} {g g' : HashTable α (Cell K V β)} {keys keys' : List (K × α)}
  {values values' : List (V × β)} {c c' : Entries K α V β} {e : HashTableEntry α (Cell K V β)}
  {p a : Addr}
  {k : K} {s : α} {v : V} {b : β} {i j n : Nat}

theorem deref_eq {t : TableT μ K V} (h : a ≠ null) : t.deref a = t.heap a := if_neg h

theorem addrs_nodes (c : Entries K α V β) : (nodes c).map Prod.fst = addrs c := by
  simp [nodes, addrs]

theorem mem_addrs_cons : a ∈ addrs (e :: c) ↔ a = e.value.addr ∨ a ∈ addrs c := List.mem_cons

theorem addrs_append : addrs (c ++ c') = addrs c ++ addrs c' := List.map_append

theorem mem_ownedKeys (h : e ∈ c) : (e.value.key, e.key) ∈ ownedKeys c :=
  List.mem_map_of_mem (f := fun e : HashTableEntry α (Cell K V β) => (e.value.key, e.key)) h

theorem chain_around (hj : j < g.table.length) (hij : j ≠ i) :
    g.chain j ⊆ Chain.around g.table i := by
  intro e he
  rw [HashTable.chain, List.getD_eq_getElem _ _ hj] at he
  refine List.mem_flatten.mpr ⟨_, ?_, he⟩
  exact List.mem_eraseIdx_iff_getElem.mpr ⟨j, hj, hij, rfl⟩

theorem middle_perm {front back rest : Entries K α V β} :
    (front ++ e :: back ++ rest).Perm (e :: (front ++ back ++ rest)) :=
  List.perm_middle.append_right rest

theorem ownedKeys_middle {front back rest : Entries K α V β} :
    (ownedKeys (front ++ e :: back ++ rest) ++ keys).Perm
      ((e.value.key, e.key) :: (ownedKeys (front ++ back ++ rest) ++ keys)) :=
  (middle_perm.map _).append_right keys

theorem ownedValues_middle {front back rest : Entries K α V β} :
    (ownedValues (front ++ e :: back ++ rest) ++ values).Perm
      ((e.value.value, e.value.content) :: (ownedValues (front ++ back ++ rest) ++ values)) :=
  (middle_perm.map _).append_right values

/-- An entry in the middle is at an address of its own. -/
theorem not_mem_rest {front back rest : Entries K α V β}
    (hd : (addrs (front ++ e :: back ++ rest)).Nodup) :
    e.value.addr ∉ addrs (front ++ back ++ rest) :=
  (List.nodup_cons.mp ((middle_perm.map _).nodup_iff.mp hd)).1

variable [DecidableEq α] {f : Functions μ K V} {o : Ownership f α β}

/-! A walk along a chain. -/

/-- The walk stops at the first entry with the content it looks for. -/
theorem findEntry_spec (same : K → Option Bool) (hlinked : (layout K V).Linked t.heap p (nodes c))
    (hsame : ∀ e ∈ c, same e.value.key = some (decide (e.key = s))) (hn : c.length < n) :
    (s ∉ Chain.keys c ∧ findEntry t same n p = some null) ∨
      ∃ front e back, c = front ++ e :: back ∧ s ∉ Chain.keys front ∧ e.key = s ∧
        findEntry t same n p = some e.value.addr := by
  induction n generalizing c p with
  | zero => omega
  | succ n ih =>
    cases c with
    | nil => exact .inl ⟨List.not_mem_nil, if_pos hlinked⟩
    | cons e c =>
      obtain ⟨rfl, hne, next, hnode, hnext⟩ := linked_cons hlinked
      have hfind : findEntry t same (n + 1) e.value.addr =
          if e.key = s then some e.value.addr else findEntry t same n next := by
        rw [findEntry, if_neg hne, deref_eq hne, hnode]
        simp only [Option.bind_eq_bind, Option.bind_some, hsame e List.mem_cons_self,
          decide_eq_true_eq]
        rfl
      rw [hfind]
      by_cases hs : e.key = s
      · exact .inr ⟨[], e, c, rfl, List.not_mem_nil, hs, if_pos hs⟩
      · rw [if_neg hs]
        have hsame' : ∀ e ∈ c, same e.value.key = some (decide (e.key = s)) :=
          fun e he => hsame e (List.mem_cons_of_mem _ he)
        rcases ih hnext hsame' (Nat.lt_of_succ_lt_succ hn) with ⟨hnot, hnull⟩ |
            ⟨front, e', back, rfl, hnot, he', hfound⟩
        · exact .inl ⟨fun hm => (List.mem_cons.mp hm).elim (fun h => hs h.symm) hnot, hnull⟩
        · exact .inr ⟨e :: front, e', back, rfl,
            fun hm => (List.mem_cons.mp hm).elim (fun h => hs h.symm) hnot, he', hfound⟩

/-! A table in memory of which one chain changes. -/

namespace Chained

theorem index_eq (h : Chained o t g keys values)
    (hk : (k, s) ∈ ownedKeys g.contents ++ keys) : t.index k = some (g.index s) := by
  rw [TableT.index, h.functions, o.hashFunc h.owns hk, h.tableSize, HashTable.index, h.hashFunc]
  rfl

theorem exists_head (h : Chained o t g keys values) (hi : i < g.table.length) :
    ∃ head, t.table[i]? = some head ∧ (layout K V).Linked t.heap head (nodes (g.chain i)) := by
  rw [← h.length_table] at hi
  exact ⟨_, List.getElem?_eq_getElem hi, h.linked i _ (List.getElem?_eq_getElem hi)⟩

/-- The entries of a chain and those of the other chains are at different addresses. -/
theorem distinct_chain (h : Chained o t g keys values) (hi : i < g.table.length) :
    (addrs (g.chain i ++ Chain.around g.table i)).Nodup :=
  ((Chain.flatten_perm hi).map _).nodup_iff.mp h.distinct

theorem owns_chain (h : Chained o t g keys values) (hi : i < g.table.length) :
    o.Owns t.client (ownedKeys (g.chain i ++ Chain.around g.table i) ++ keys)
      (ownedValues (g.chain i ++ Chain.around g.table i) ++ values) :=
  o.perm h.owns (((Chain.flatten_perm hi).map _).append_right _)
    (((Chain.flatten_perm hi).map _).append_right _)

/-- One chain is exchanged, and no entry of the others is written. -/
theorem setChain {client' : μ} {heap' : Addr → Option (EntryNode K V)} {table' : List Addr}
    {m : Int} (h : Chained o t g keys values) (hi : i < g.table.length)
    (hlen : table'.length = t.table.length) (htable : ∀ j, j ≠ i → table'[j]? = t.table[j]?)
    (hchain : ∀ head, table'[i]? = some head → (layout K V).Linked heap' head (nodes c))
    (hheap : ∀ a ∈ addrs (Chain.around g.table i), heap' a = t.heap a)
    (hdistinct : (addrs (c ++ Chain.around g.table i)).Nodup)
    (howns : o.Owns client' (ownedKeys (c ++ Chain.around g.table i) ++ keys')
      (ownedValues (c ++ Chain.around g.table i) ++ values')) :
    Chained o { t with client := client', heap := heap', table := table', entries := m }
      { g.setChain i c with entries := m } keys' values' where
  functions := h.functions
  length_table := by
    rw [hlen, h.length_table]
    exact List.length_set.symm
  tableSize := h.tableSize
  hashFunc := h.hashFunc
  entries := rfl
  primeIndex := h.primeIndex
  linked := by
    intro j head hhead
    change (layout K V).Linked heap' head (nodes ((g.table.set i c).getD j []))
    by_cases hij : j = i
    · subst hij
      rw [List.getD_eq_getElem?_getD, List.getElem?_set_self hi]
      exact hchain head hhead
    · rw [List.getD_eq_getElem?_getD, List.getElem?_set_ne (Ne.symm hij),
        ← List.getD_eq_getElem?_getD]
      replace hhead : t.table[j]? = some head := (htable j hij).symm.trans hhead
      have hj : j < g.table.length := h.length_table ▸ (List.getElem?_eq_some_iff.mp hhead).1
      refine (h.linked j head hhead).congr fun a ha => hheap a ?_
      rw [addrs_nodes] at ha
      exact List.map_subset _ (chain_around hj hij) ha
  distinct := ((Chain.flatten_set_perm hi).map _).nodup_iff.mpr hdistinct
  owns := o.perm howns (((Chain.flatten_set_perm hi).symm.map _).append_right _)
    (((Chain.flatten_set_perm hi).symm.map _).append_right _)

end Chained

/-- The turns of a walk suffice. -/
theorem Holds.turns (h : Holds o t g keys values) (hi : i < g.table.length) :
    (g.chain i).length < t.turns := by
  have hlen := (Chain.flatten_perm hi).length_eq
  have hcount := h.wellFormed.count
  rw [← h.entries] at hcount
  change t.entries = (g.table.flatten.length : Int) at hcount
  rw [List.length_append] at hlen
  rw [TableT.turns, hcount, Int.toNat_natCast, hlen, HashTable.chain]
  omega

theorem Holds.turns_all (h : Holds o t g keys values) : ∀ c ∈ g.table, c.length < t.turns := by
  intro c hc
  obtain ⟨i, hi, rfl⟩ := List.mem_iff_getElem.mp hc
  have hlt := h.turns hi
  rwa [HashTable.chain, List.getD_eq_getElem _ _ hi] at hlt

/-! Growth. -/

/-- An entry is linked at the front of its chain. -/
theorem Chained.link {head : Addr} (h : Chained o t g (ownedKeys (e :: c) ++ keys)
      (ownedValues (e :: c) ++ values)) (hi : g.index e.key < g.table.length)
    (hhead : t.table[g.index e.key]? = some head) (hne : e.value.addr ≠ null)
    (hfresh : e.value.addr ∉ addrs g.contents) :
    Chained o { t with
        heap := Function.update t.heap e.value.addr (some ⟨e.value.key, e.value.value, head⟩)
        table := t.table.set (g.index e.key) e.value.addr }
      (relink g e) (ownedKeys c ++ keys) (ownedValues c ++ values) := by
  have hnot : ∀ {b}, b ∈ addrs g.contents → b ≠ e.value.addr := by
    rintro b hb rfl
    exact hfresh hb
  have hsub : Chain.around g.table (g.index e.key) ⊆ g.contents := fun x hx =>
    (Chain.flatten_perm hi).mem_iff.mpr (List.mem_append_right _ hx)
  have hlinked := h.linked _ head hhead
  have hrelink : relink g e = { g.setChain (g.index e.key) (e :: g.chain (g.index e.key)) with
      entries := t.entries } := by
    rw [h.entries]
    rfl
  rw [hrelink]
  refine h.setChain hi List.length_set ?_ ?_ ?_ ?_ ?_
  · intro j hj
    exact List.getElem?_set_ne (Ne.symm hj)
  · intro head' hhead'
    rw [List.getElem?_set_self (h.length_table ▸ hi), Option.some.injEq] at hhead'
    subst hhead'
    refine ⟨rfl, hne, _, Function.update_self _ _ _, rfl, hlinked.congr fun b hb => ?_⟩
    rw [addrs_nodes] at hb
    exact Function.update_of_ne (hnot (List.map_subset _ (Chain.getD_subset hi) hb)) _ _
  · intro b hb
    exact Function.update_of_ne (hnot (List.map_subset _ hsub hb)) _ _
  · refine List.nodup_cons.mpr ⟨?_, h.distinct_chain hi⟩
    intro hm
    exact hfresh (((Chain.flatten_perm hi).map _).mem_iff.mpr hm)
  · have howns := h.owns_chain hi
    refine o.perm howns ?_ ?_
    · exact List.perm_middle
    · exact List.perm_middle

theorem relinkChain_spec (h : Chained o t g (ownedKeys c ++ keys) (ownedValues c ++ values))
    (hg : Linkable g) (hlinked : (layout K V).Linked t.heap p (nodes c))
    (hd : (addrs (c ++ g.contents)).Nodup) (hn : c.length < n) :
    ∃ t', relinkChain n t p = some t' ∧ Chained o t' (c.foldl relink g) keys values ∧
      ∀ a ∉ addrs c, t'.heap a = t.heap a := by
  induction n generalizing t g p c with
  | zero => omega
  | succ n ih =>
    cases c with
    | nil => exact ⟨t, if_pos hlinked, h, fun a _ => rfl⟩
    | cons e c =>
      obtain ⟨rfl, hne, next, hnode, hnext⟩ := linked_cons hlinked
      have hnot : e.value.addr ∉ addrs c ++ addrs g.contents := by
        rw [← addrs_append]
        exact (List.nodup_cons.mp hd).1
      have hi : g.index e.key < g.table.length := by
        rw [hg.length_table]
        exact Nat.mod_lt _ hg.tableSize_pos
      have hindex : t.index e.value.key = some (g.index e.key) :=
        h.index_eq (List.mem_append_right _ List.mem_cons_self)
      obtain ⟨head, hhead, _⟩ := h.exists_head hi
      have hfresh : e.value.addr ∉ addrs g.contents := fun hm =>
        hnot (List.mem_append_right _ hm)
      have hlink := h.link hi hhead hne hfresh
      obtain ⟨hg', hperm⟩ := relink_spec hg e
      have hnext' : (layout K V).Linked (Function.update t.heap e.value.addr
          (some ⟨e.value.key, e.value.value, head⟩)) next (nodes c) := by
        refine hnext.congr fun b hb => Function.update_of_ne ?_ _ _
        rintro rfl
        rw [addrs_nodes] at hb
        exact hnot (List.mem_append_left _ hb)
      have hd' : (addrs (c ++ (relink g e).contents)).Nodup := by
        refine ((hperm.append_left c).map _).nodup_iff.mpr ?_
        exact (List.perm_middle.map _).nodup_iff.mpr hd
      obtain ⟨t', hrun, hchained, hheap⟩ := ih hlink hg' hnext' hd' (Nat.lt_of_succ_lt_succ hn)
      refine ⟨t', ?_, hchained, fun b hb => ?_⟩
      · rw [relinkChain, if_neg hne, deref_eq hne, hnode]
        simp only [Option.bind_eq_bind, Option.bind_some, hindex, hhead]
        exact hrun
      · obtain ⟨hbe, hbc⟩ := not_or.mp fun hm => hb (List.mem_cons.mpr hm)
        rw [hheap b hbc]
        exact Function.update_of_ne hbe _ _

/-- Every chain of the old array is linked into the new one. -/
theorem relinkAll_spec {rows : List (Entries K α V β)} {heads : List Addr}
    (h : Chained o t g (ownedKeys rows.flatten ++ keys) (ownedValues rows.flatten ++ values))
    (hg : Linkable g) (hlen : heads.length = rows.length)
    (hlinked : ∀ i head, heads[i]? = some head →
      (layout K V).Linked t.heap head (nodes (rows.getD i [])))
    (hd : (addrs (rows.flatten ++ g.contents)).Nodup) (hn : ∀ c ∈ rows, c.length < n) :
    ∃ t', relinkAll n heads t = some t' ∧ Chained o t' (rows.flatten.foldl relink g) keys values ∧
      ∀ a ∉ addrs rows.flatten, t'.heap a = t.heap a := by
  induction heads generalizing t g rows with
  | nil =>
    obtain rfl := List.length_eq_zero_iff.mp hlen.symm
    exact ⟨t, rfl, h, fun a _ => rfl⟩
  | cons head heads ih =>
    cases rows with
    | nil => cases hlen
    | cons c rows =>
      rw [List.flatten_cons] at h hd ⊢
      have hfirst : (layout K V).Linked t.heap head (nodes c) := hlinked 0 head rfl
      have hd₁ : (addrs (c ++ g.contents)).Nodup := by
        refine hd.sublist (List.Sublist.map _ ?_)
        rw [List.append_assoc]
        exact (List.sublist_append_right _ _).append_left c
      have hdisj : List.Disjoint (addrs c) (addrs rows.flatten) := by
        rw [addrs_append, addrs_append] at hd
        exact List.disjoint_of_nodup_append hd.of_append_left
      have h₁ : Chained o t g (ownedKeys c ++ (ownedKeys rows.flatten ++ keys))
          (ownedValues c ++ (ownedValues rows.flatten ++ values)) := by
        simpa [ownedKeys, ownedValues] using h
      obtain ⟨t₁, hrun₁, hchained₁, hheap₁⟩ :=
        relinkChain_spec h₁ hg hfirst hd₁ (hn c List.mem_cons_self)
      obtain ⟨hg₁, hperm, _⟩ := foldl_relink_spec c hg
      have hrest : ∀ i head, heads[i]? = some head →
          (layout K V).Linked t₁.heap head (nodes (rows.getD i [])) := by
        intro i head' hhead'
        refine (hlinked (i + 1) head' hhead').congr fun a ha => hheap₁ a fun hc => ?_
        rw [List.getD_cons_succ, addrs_nodes] at ha
        have hi : i < rows.length := by
          have := (List.getElem?_eq_some_iff.mp hhead').1
          rwa [Nat.succ.inj hlen] at this
        exact hdisj hc (List.map_subset _ (Chain.getD_subset hi) ha)
      have hd₂ : (addrs (rows.flatten ++ (c.foldl relink g).contents)).Nodup := by
        refine (((hperm.append_left _).trans ?_).map _).nodup_iff.mpr hd
        rw [List.append_assoc]
        exact List.perm_append_comm_assoc _ _ _
      obtain ⟨t₂, hrun₂, hchained₂, hheap₂⟩ := ih hchained₁ hg₁ (Nat.succ.inj hlen) hrest hd₂
        fun c hc => hn c (List.mem_cons_of_mem _ hc)
      refine ⟨t₂, ?_, ?_, fun a ha => ?_⟩
      · rw [relinkAll, hrun₁]
        exact hrun₂
      · rw [List.foldl_append]
        exact hchained₂
      · have hnot : a ∉ addrs c ++ addrs rows.flatten := by rwa [addrs, addrs, ← List.map_append]
        obtain ⟨hc, hr⟩ := not_or.mp fun hm => hnot (List.mem_append.mpr hm)
        rw [hheap₂ a hr, hheap₁ a hc]

theorem Chained.newTableSize_eq (h : Chained o t g keys values) :
    t.newTableSize = newTableSize g := by
  rewrite [TableT.newTableSize, newTableSize, h.entries, h.primeIndex]
  rfl

/-- `calloc` is asked for the same number of chains, all empty. -/
theorem hashTableAllocateTable_spec (h : Chained o t g keys values) (granted : Bool) :
    (hashTableAllocateTable t granted = none ∧
        (granted = false ∨ Redshell.hashTableAllocateTable g = none)) ∨
      ∃ t' g', hashTableAllocateTable t granted = some t' ∧ granted = true ∧
        Redshell.hashTableAllocateTable g = some g' ∧ t'.heap = t.heap ∧
        Chained o t' g' (ownedKeys g.contents ++ keys) (ownedValues g.contents ++ values) := by
  have hsize := h.newTableSize_eq
  cases granted with
  | false => exact .inl ⟨if_neg fun hand => Bool.false_ne_true hand.1, .inl rfl⟩
  | true =>
    by_cases hpos : 0 < newTableSize g
    · right
      refine ⟨_, _, if_pos ⟨rfl, hsize ▸ hpos⟩, rfl, if_pos hpos, rfl, ?_⟩
      refine ⟨h.functions, ?_, ?_, h.hashFunc, h.entries, h.primeIndex, ?_, ?_, ?_⟩
      · rw [List.length_replicate, List.length_replicate, hsize]
      · rw [hsize]
      · intro i head hhead
        obtain ⟨_, rfl⟩ := List.getElem?_eq_some_iff.mp hhead
        rw [List.getElem_replicate, HashTable.chain, List.getD_eq_getElem?_getD,
          List.getElem?_replicate]
        split <;> rfl
      · rw [contents, List.flatten_replicate_nil]
        exact List.nodup_nil
      · rw [contents, List.flatten_replicate_nil]
        exact h.owns
    · exact .inl ⟨if_neg fun hand => hpos (hsize ▸ hand.2), .inr (if_neg hpos)⟩

/-- A table is enlarged, or `calloc` fails and it is as it was. -/
theorem hashTableEnlarge_spec (h : Holds o t g keys values) (granted : Bool) :
    (hashTableEnlarge t granted = some (t, false) ∧
        (granted = false ∨ Redshell.hashTableEnlarge g = none)) ∨
      ∃ t' g', hashTableEnlarge t granted = some (t', true) ∧ granted = true ∧
        Redshell.hashTableEnlarge g = some g' ∧ Holds o t' g' keys values := by
  have hnext : Chained o { t with primeIndex := t.primeIndex + 1 }
      { g with primeIndex := g.primeIndex + 1 } keys values :=
    { h.toChained with primeIndex := by rw [← h.primeIndex] }
  rw [hashTableEnlarge]
  rcases hashTableAllocateTable_spec hnext granted with ⟨hnone, hwhy⟩ |
      ⟨new, gnew, hnew, hgranted, hgnew, hheap, hchained⟩
  · rw [hnone]
    exact .inl ⟨rfl, hwhy.imp_right fun h => by rw [Redshell.hashTableEnlarge, h]; rfl⟩
  · right
    rw [hnew]
    obtain ⟨hpos, hrow, _⟩ := Redshell.hashTableAllocateTable_spec hgnew
    have hempty : gnew.contents = [] := by rw [contents, hrow, List.flatten_replicate_nil]
    have hlinkable : Linkable gnew := by
      refine ⟨by rw [hrow, List.length_replicate], hpos, ?_⟩
      rw [hrow]
      exact Chain.placed_replicate _ _
    have hlinked : ∀ i head, t.table[i]? = some head →
        (layout K V).Linked new.heap head (nodes (g.table.getD i [])) := by
      rw [hheap]
      exact h.linked
    have hd : (addrs (g.contents ++ gnew.contents)).Nodup := by
      rw [hempty, List.append_nil]
      exact h.distinct
    obtain ⟨t', hrun, hchained', hframe⟩ :=
      relinkAll_spec hchained hlinkable h.length_table hlinked hd h.turns_all
    have henlarge : Redshell.hashTableEnlarge g = some (g.contents.foldl relink gnew) := by
      rw [Redshell.hashTableEnlarge, hgnew, contents, List.foldl_flatten]
      rfl
    obtain ⟨hw, hperm, _⟩ := Redshell.hashTableEnlarge_spec h.wellFormed henlarge
    refine ⟨t', _, ?_, hgranted, henlarge, hchained', hw, fun a ha => ?_⟩
    · change (relinkAll t.turns t.table new).map _ = _
      rw [hrun]
      rfl
    · by_contra hnot
      replace hnot : a ∉ addrs g.contents := fun hm => hnot ((hperm.map _).mem_iff.mpr hm)
      rw [hframe a hnot, hheap] at ha
      exact hnot (h.exact a ha)

/-! Insertion. -/

theorem Chained.setEntries (h : Chained o t g keys values) (m : Int) :
    Chained o { t with entries := m } { g with entries := m } keys values :=
  { h with entries := rfl }

/-- The caller's keys and values are others, or the memory that they are in has changed. -/
theorem Holds.setClient (h : Holds o t g keys values) {client : μ}
    (howns : o.Owns client (ownedKeys g.contents ++ keys') (ownedValues g.contents ++ values')) :
    Holds o { t with client := client } g keys' values' :=
  { h with owns := howns }

theorem Holds.perm (h : Holds o t g keys values) (hk : keys.Perm keys') :
    Holds o t g keys' values :=
  { h with owns := o.perm h.owns (hk.append_left _) (.refl _) }

/-- Memory for an entry is not in use. -/
theorem Holds.fresh (h : Holds o t g keys values) (ha : t.heap a = none) :
    a ∉ addrs g.contents := by
  intro hm
  obtain ⟨e, he, rfl⟩ := List.mem_map.mp hm
  obtain ⟨c, hc, he⟩ := List.mem_flatten.mp he
  obtain ⟨i, hi, rfl⟩ := List.mem_iff_getElem.mp hc
  obtain ⟨head, _, hlinked⟩ := h.exists_head hi
  refine hlinked.allocated ?_ ha
  rw [addrs_nodes, HashTable.chain, List.getD_eq_getElem _ _ hi]
  exact List.mem_map_of_mem he

/-- The entries of a chain are read and compared with a key of the caller. -/
theorem Holds.same (h : Holds o t g keys values) (hk : (k, s) ∈ keys) (hi : i < g.table.length)
    (he : e ∈ g.chain i) :
    t.functions.equalFunc t.client e.value.key k = some (decide (e.key = s)) ∧
      t.functions.equalFunc t.client k e.value.key = some (decide (e.key = s)) := by
  have hmem : (e.value.key, e.key) ∈ ownedKeys g.contents ++ keys :=
    List.mem_append_left _ (mem_ownedKeys (Chain.getD_subset hi he))
  have hmem' : (k, s) ∈ ownedKeys g.contents ++ keys := List.mem_append_right _ hk
  rw [h.functions]
  refine ⟨o.equalFunc h.owns hmem hmem', ?_⟩
  rw [o.equalFunc h.owns hmem' hmem]
  exact congrArg some (decide_eq_decide.mpr eq_comm)

/-- An entry with this key gets the new key and value in place of its own, which are freed. -/
theorem Holds.overwrite {front back : Entries K α V β} {client : μ} {next : Addr}
    (h : Holds o t g ((k, s) :: keys) ((v, b) :: values)) (hi : i < g.table.length)
    (hchain : g.chain i = front ++ e :: back)
    (hnode : t.heap e.value.addr = some ⟨e.value.key, e.value.value, next⟩)
    (howns : o.Owns client (ownedKeys (front ++ back ++ Chain.around g.table i) ++ (k, s) :: keys)
      (ownedValues (front ++ back ++ Chain.around g.table i) ++ (v, b) :: values)) :
    Chained o { t with
        client := client
        heap := Function.update t.heap e.value.addr (some ⟨k, v, next⟩) }
      (g.setChain i (front ++ ⟨s, ⟨e.value.addr, k, v, b⟩⟩ :: back)) keys values := by
  have hd := h.distinct_chain hi
  rw [hchain] at hd
  have hnot := not_mem_rest hd
  have hne : ∀ {c : Entries K α V β}, c ⊆ front ++ back ++ Chain.around g.table i → ∀ b ∈ addrs c,
      b ≠ e.value.addr := by
    rintro c hc b hb rfl
    exact hnot (List.map_subset _ hc hb)
  have hset : g.setChain i (front ++ ⟨s, ⟨e.value.addr, k, v, b⟩⟩ :: back) =
      { g.setChain i (front ++ ⟨s, ⟨e.value.addr, k, v, b⟩⟩ :: back) with
        entries := t.entries } := by
    rw [h.entries]
    rfl
  rw [hset]
  refine h.setChain hi rfl (fun _ _ => rfl) ?_ ?_ (by simpa [addrs] using hd) ?_
  · intro head hhead
    have hlinked := h.linked i head hhead
    rw [hchain, nodes, List.map_append, List.map_cons] at hlinked
    rw [nodes, List.map_append, List.map_cons]
    obtain ⟨_, node, hnode', _, hback⟩ := hlinked.get
    obtain rfl := Option.some.inj (hnode.symm.trans hnode')
    refine hlinked.write (fun b hb => ?_) (Function.update_self _ _ _) rfl
      (hback.congr fun b hb => ?_)
    · exact Function.update_of_ne (hne (by simp) b (addrs_nodes front ▸ hb)) _ _
    · exact Function.update_of_ne (hne (by simp) b (addrs_nodes back ▸ hb)) _ _
  · intro b hb
    exact Function.update_of_ne (hne (by simp) b hb) _ _
  · refine o.perm howns ?_ ?_
    · exact List.perm_middle.trans (ownedKeys_middle (e := ⟨s, ⟨e.value.addr, k, v, b⟩⟩)).symm
    · exact List.perm_middle.trans (ownedValues_middle (e := ⟨s, ⟨e.value.addr, k, v, b⟩⟩)).symm

theorem insertEntry_eq {node head rover : Addr} (hindex : t.index k = some i)
    (hhead : t.table[i]? = some head)
    (hfind : findEntry t (fun old => t.functions.equalFunc t.client old k) t.turns head =
      some rover) :
    insertEntry t k v node =
      if rover = null then
        if node = null then some (t, false)
        else some ({ t with
          heap := Function.update t.heap node (some ⟨k, v, head⟩)
          table := t.table.set i node
          entries := t.entries + 1 }, true)
      else (t.deref rover).bind fun entry =>
        (callFree t.functions.valueFreeFunc t.client entry.value).bind fun client =>
        (callFree t.functions.keyFreeFunc client entry.key).bind fun client =>
        some ({ t with
          client := client
          heap := Function.update t.heap rover
            (some { entry with key := k, value := v }) }, true) := by
  rw [insertEntry, hindex]
  simp only [Option.bind_eq_bind, Option.bind_some, hhead, hfind]
  rfl

/-- A new entry is linked at the front of its chain. -/
theorem Holds.insertEntry_linked {node head : Addr}
    (h : Holds o t g ((k, s) :: keys) ((v, b) :: values))
    (hhead : t.table[g.index s]? = some head) (hnode : t.heap node = none) (hne : node ≠ null)
    (hnot : s ∉ Chain.keys g.contents) :
    Holds o { t with
        heap := Function.update t.heap node (some ⟨k, v, head⟩)
        table := t.table.set (g.index s) node
        entries := t.entries + 1 }
      (hashTableInsertEntry g s ⟨node, k, v, b⟩) keys values := by
  have hlink := (Chained.link (e := ⟨s, ⟨node, k, v, b⟩⟩) (c := []) h.toChained
    (h.wellFormed.index_lt s) hhead hne (h.fresh hnode)).setEntries (t.entries + 1)
  have hlinked := hashTableInsertEntry_linked (v := (⟨node, k, v, b⟩ : Cell K V β))
    (Chain.overwrite_eq_none_iff.mpr (mt (mem_keys_chain_iff h.wellFormed).mp hnot))
  obtain ⟨hw, hperm⟩ := Redshell.hashTableInsertEntry_spec h.wellFormed s ⟨node, k, v, b⟩
  refine ⟨?_, hw, fun b hb => ?_⟩
  · rw [hlinked, ← h.entries]
    exact hlink
  · refine (hperm.map _).mem_iff.mpr ?_
    rw [Chain.others_of_not_mem hnot]
    by_cases hbn : b = node
    · exact List.mem_cons.mpr (.inl hbn)
    · refine List.mem_cons_of_mem _ (h.exact b ?_)
      rwa [← Function.update_of_ne hbn (some ⟨k, v, head⟩) t.heap]

/-- The entry that has the key keeps its address. -/
theorem Holds.insertEntry_overwritten {front back : Entries K α V β}
    (h : Holds o t g ((k, e.key) :: keys) ((v, b) :: values))
    (hchain : g.chain (g.index e.key) = front ++ e :: back) (hnot : e.key ∉ Chain.keys front) :
    ∃ next client₁ client₂, e.value.addr ≠ null ∧
      t.heap e.value.addr = some ⟨e.value.key, e.value.value, next⟩ ∧
      callFree f.valueFreeFunc t.client e.value.value = some client₁ ∧
      callFree f.keyFreeFunc client₁ e.value.key = some client₂ ∧
      Holds o { t with
          client := client₂
          heap := Function.update t.heap e.value.addr (some ⟨k, v, next⟩) }
        (hashTableInsertEntry g e.key ⟨e.value.addr, k, v, b⟩) keys values := by
  have hi := h.wellFormed.index_lt e.key
  obtain ⟨head, hhead, hlinked⟩ := h.exists_head hi
  obtain ⟨hne, next, hnode, _⟩ := linked_get (hchain ▸ hlinked)
  have howns := h.owns_chain hi
  rw [hchain] at howns
  replace howns := o.perm howns ownedKeys_middle ownedValues_middle
  obtain ⟨client₁, hvalue, howns⟩ := o.freeValue howns
  obtain ⟨client₂, hkey, howns⟩ := o.freeKey howns
  have hsplit : Chain.overwrite e.key (⟨e.value.addr, k, v, b⟩ : Cell K V β)
      (g.chain (g.index e.key)) = some (front ++ ⟨e.key, ⟨e.value.addr, k, v, b⟩⟩ :: back) := by
    rw [hchain]
    exact Chain.overwrite_split hnot rfl
  have hoverwrite := hashTableInsertEntry_overwritten hsplit
  refine ⟨next, client₁, client₂, hne, hnode, hvalue, hkey, ?_, ?_, fun a ha => ?_⟩
  · rw [hoverwrite]
    exact h.overwrite hi hchain hnode howns
  · exact (Redshell.hashTableInsertEntry_spec h.wellFormed e.key ⟨e.value.addr, k, v, b⟩).1
  · have hmem : e ∈ g.contents := Chain.getD_subset hi (by
      rw [← HashTable.chain, hchain]
      exact List.mem_append_right _ List.mem_cons_self)
    have hsame : addrs (front ++ ⟨e.key, ⟨e.value.addr, k, v, b⟩⟩ :: back ++
        Chain.around g.table (g.index e.key)) =
        addrs (g.chain (g.index e.key) ++ Chain.around g.table (g.index e.key)) := by
      simp [addrs, hchain]
    rw [hoverwrite]
    refine ((Chain.flatten_set_perm hi).map _).mem_iff.mpr ?_
    change a ∈ addrs _
    rw [hsame]
    refine ((Chain.flatten_perm hi).map _).mem_iff.mp ?_
    by_cases hae : a = e.value.addr
    · rw [hae]
      exact List.mem_map_of_mem hmem
    · apply h.exact a
      rwa [← Function.update_of_ne hae (some ⟨k, v, next⟩) t.heap]

/-- Once the table is large enough an insertion fails only where `malloc` does, for a new key. -/
theorem insertEntry_spec {node : Addr} (h : Holds o t g ((k, s) :: keys) ((v, b) :: values))
    (hnode : t.heap node = none) :
    (insertEntry t k v node = some (t, false) ∧ s ∉ Chain.keys g.contents ∧ node = null) ∨
      ∃ t' a, insertEntry t k v node = some (t', true) ∧
        (s ∉ Chain.keys g.contents → node ≠ null) ∧
        Holds o t' (hashTableInsertEntry g s ⟨a, k, v, b⟩) keys values := by
  have hi := h.wellFormed.index_lt s
  have hindex : t.index k = some (g.index s) :=
    h.index_eq (List.mem_append_right _ List.mem_cons_self)
  obtain ⟨head, hhead, hlinked⟩ := h.exists_head hi
  have hfound := findEntry_spec (fun old => t.functions.equalFunc t.client old k) hlinked
    (fun e he => (h.same List.mem_cons_self hi he).1) (h.turns hi)
  rcases hfound with ⟨hnot, hfind⟩ | ⟨front, e, back, hchain, hnot, rfl, hfind⟩
  · have hkeys : s ∉ Chain.keys g.contents := mt (mem_keys_chain_iff h.wellFormed).mpr hnot
    rw [insertEntry_eq hindex hhead hfind, if_pos rfl]
    by_cases hnull : node = null
    · exact .inl ⟨if_pos hnull, hkeys, hnull⟩
    · right
      exact ⟨_, node, if_neg hnull, fun _ => hnull,
        h.insertEntry_linked hhead hnode hnull hkeys⟩
  · right
    obtain ⟨next, client₁, client₂, hne, hnode', hvalue, hkey, hholds⟩ :=
      h.insertEntry_overwritten hchain hnot
    refine ⟨_, e.value.addr, ?_, fun hnone => ?_, hholds⟩
    · rw [insertEntry_eq hindex hhead hfind, if_neg hne, deref_eq hne, hnode', h.functions]
      simp only [Option.bind_some, hvalue, hkey]
    · refine absurd ((mem_keys_chain_iff h.wellFormed).mp ?_) hnone
      rw [hchain]
      exact List.mem_map_of_mem (List.mem_append_right _ List.mem_cons_self)

/-- An insertion that fails leaves the key and the value to the caller; below 500 million entries it
fails for want of memory only. -/
theorem hashTableInsert_spec {node : Addr} (h : Holds o t g ((k, s) :: keys) ((v, b) :: values))
    (granted : Bool) (hnode : t.heap node = none) :
    (∃ t' g', hashTableInsert t k v granted node = some (t', false) ∧
        Holds o t' g' ((k, s) :: keys) ((v, b) :: values) ∧ g'.contents.Perm g.contents ∧
        (g.PrimeSized → 0 ≤ g.entries → g.entries < 500000000 →
          g'.PrimeSized ∧ (granted = false ∨ node = null))) ∨
      ∃ t' a, hashTableInsert t k v granted node = some (t', true) ∧
        Holds o t' (Redshell.hashTableInsert g s ⟨a, k, v, b⟩).1 keys values ∧
        (Redshell.hashTableInsert g s ⟨a, k, v, b⟩).2 = true := by
  have hload : (int32 (t.entries * 3)).tdiv t.tableSize =
      (int32 (g.entries * 3)).tdiv g.tableSize := by rw [h.entries, h.tableSize]
  by_cases hfull : 0 < (int32 (g.entries * 3)).tdiv g.tableSize
  · have hinsert : hashTableInsert t k v granted node = (hashTableEnlarge t granted).bind fun r =>
        if r.2 then insertEntry r.1 k v node else some (r.1, false) := by
      rw [hashTableInsert, if_pos (hload ▸ hfull)]
      rfl
    have hlist : ∀ cell, Redshell.hashTableInsert g s cell =
        match Redshell.hashTableEnlarge g with
        | none => (g, false)
        | some g => (hashTableInsertEntry g s cell, true) := by
      intro cell
      rw [Redshell.hashTableInsert, if_pos hfull]
      cases Redshell.hashTableEnlarge g <;> rfl
    rw [hinsert]
    rcases hashTableEnlarge_spec h granted with ⟨hfail, hwhy⟩ |
        ⟨t₁, g₁, hdone, hgranted, hg₁, h₁⟩
    · left
      refine ⟨t, g, by rw [hfail]; rfl, h, .refl _, fun hsized h0 hn => ⟨hsized, ?_⟩⟩
      rcases hwhy with hno | hnone
      · exact .inl hno
      · have hinserted :=
          (hashTableInsert_primeSized (k := s) (v := ⟨node, k, v, b⟩) hsized h0 hn).1
        rw [hlist, hnone] at hinserted
        cases hinserted
    · have hperm := (Redshell.hashTableEnlarge_spec h.wellFormed hg₁).2.1
      have hnode₁ : t₁.heap node = none := by
        by_contra hne
        exact h.fresh hnode ((hperm.map _).mem_iff.mp (h₁.exact node hne))
      rw [hdone]
      rcases insertEntry_spec h₁ hnode₁ with ⟨hfail, _, hnull⟩ | ⟨t₂, a, hdone₂, _, h₂⟩
      · refine .inl ⟨t₁, g₁, hfail, h₁, hperm, fun hsized h0 hn => ⟨?_, .inr hnull⟩⟩
        have hinserted :=
          (hashTableInsert_primeSized (k := s) (v := ⟨node, k, v, b⟩) hsized h0 hn).2
        obtain ⟨hsize, hindex⟩ := hashTableInsertEntry_frame g₁ s (⟨node, k, v, b⟩ : Cell K V β)
        rw [hlist, hg₁, HashTable.PrimeSized, hsize, hindex] at hinserted
        exact hinserted
      · right
        refine ⟨t₂, a, hdone₂, ?_, ?_⟩ <;> rw [hlist, hg₁]
        exact h₂
  · have hinsert : hashTableInsert t k v granted node = insertEntry t k v node :=
      if_neg (hload ▸ hfull)
    have hlist : ∀ cell,
        Redshell.hashTableInsert g s cell = (hashTableInsertEntry g s cell, true) :=
      fun cell => if_neg hfull
    rw [hinsert]
    rcases insertEntry_spec h hnode with ⟨hfail, _, hnull⟩ | ⟨t', a, hdone, _, h'⟩
    · exact .inl ⟨t, g, hfail, h, .refl _, fun hsized _ _ => ⟨hsized, .inr hnull⟩⟩
    · right
      refine ⟨t', a, hdone, ?_, ?_⟩ <;> rw [hlist]
      exact h'

/-! Lookup. -/

theorem hashTableLookup_spec (h : Holds o t g keys values) (hk : (k, s) ∈ keys) :
    hashTableLookup t k = some ((Redshell.hashTableLookup g s).map (·.value)) := by
  have hi := h.wellFormed.index_lt s
  have hindex : t.index k = some (g.index s) := h.index_eq (List.mem_append_right _ hk)
  obtain ⟨head, hhead, hlinked⟩ := h.exists_head hi
  have hlookup : ∀ rover,
      findEntry t (fun old => t.functions.equalFunc t.client k old) t.turns head =
      some rover → hashTableLookup t k =
        if rover = null then some none else (t.deref rover).map fun entry => some entry.value := by
    intro rover hfind
    rw [hashTableLookup, hindex]
    simp only [Option.bind_eq_bind, Option.bind_some, hhead, hfind]
    split
    · rfl
    · exact (Option.map_eq_bind ..).symm
  rcases findEntry_spec (fun old => t.functions.equalFunc t.client k old) hlinked
    (fun e he => (h.same hk hi he).2) (h.turns hi) with
    ⟨hnot, hfind⟩ | ⟨front, e, back, hchain, hnot, rfl, hfind⟩
  · rw [hlookup null hfind, if_pos rfl, Redshell.hashTableLookup, Chain.find_eq_none_iff.mpr hnot]
    rfl
  · obtain ⟨hne, next, hnode, _⟩ := linked_get (hchain ▸ hlinked)
    rw [hlookup _ hfind, if_neg hne, deref_eq hne, hnode, Redshell.hashTableLookup, hchain,
      Chain.find_split hnot rfl]
    rfl

end Redshell.LinkedTable
