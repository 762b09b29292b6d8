import Redshell.LinkedTableRun

/-! Removal of an entry of the table in memory, and release of the whole table. -/
namespace Redshell.LinkedTable

open HashTable
open LinkedQueue (Addr null)

variable {μ K V α β : Type} [DecidableEq α] {f : Functions μ K V} {o : Ownership f α β}
  {t t' : TableT μ K V} {g g' : HashTable α (Cell K V β)} {keys : List (K × α)}
  {values : List (V × β)} {c : Entries K α V β} {e : HashTableEntry α (Cell K V β)} {p : Addr}
  {k : K} {s : α} {i n : Nat}

/-! Removal. -/

/-- The place that `rover` points at comes after these entries of the chain. -/
def Link.After (i : Nat) (front : Entries K α V β) (rover : Link) : Prop :=
  front = [] ∧ rover = .head i ∨
    ∃ before e, front = before ++ [e] ∧ rover = .next e.value.addr

/-- The entry that `rover` leads to is unlinked and freed. -/
theorem Holds.unlink {front back : Entries K α V β} {rover : Link} {next : Addr}
    (h : Holds o t g keys values) (hi : i < g.table.length)
    (hchain : g.chain i = front ++ e :: back)
    (hrover : rover.After i front) (hne : e.value.addr ≠ null)
    (hnode : t.heap e.value.addr = some ⟨e.value.key, e.value.value, next⟩)
    (hback : (layout K V).Linked t.heap next (nodes back)) (m : Int) :
    ∃ unlinked freed, rover.write t next = some unlinked ∧
      hashTableFreeEntry unlinked e.value.addr = some freed ∧
      Chained o { freed with entries := m } { g.setChain i (front ++ back) with entries := m } keys
        values ∧
      ∀ a, freed.heap a ≠ none → a ≠ e.value.addr ∧ t.heap a ≠ none := by
  have hd := h.distinct_chain hi
  rw [hchain] at hd
  have hnot := not_mem_rest hd
  have hrest : ∀ {c : Entries K α V β}, c ⊆ front ++ back ++ Chain.around g.table i → ∀ b ∈ addrs c,
      b ≠ e.value.addr := by
    rintro c hc b hb rfl
    exact hnot (List.map_subset _ hc hb)
  have howns := h.owns_chain hi
  rw [hchain] at howns
  replace howns := o.perm howns ownedKeys_middle ownedValues_middle
  obtain ⟨client₁, hkey, howns⟩ := o.freeKey howns
  obtain ⟨client₂, hvalue, howns⟩ := o.freeValue howns
  have hd' : (addrs (front ++ back ++ Chain.around g.table i)).Nodup :=
    (List.nodup_cons.mp ((middle_perm.map _).nodup_iff.mp hd)).2
  rcases hrover with ⟨rfl, rfl⟩ | ⟨before, e', rfl, rfl⟩
  · refine ⟨{ t with table := t.table.set i next }, { t with
        client := client₂
        heap := Function.update t.heap e.value.addr none
        table := t.table.set i next }, ?_, ?_, ?_, fun a ha => ?_⟩
    · exact if_pos (h.length_table ▸ hi)
    · rw [hashTableFreeEntry, deref_eq hne, hnode]
      simp only [Option.bind_eq_bind, Option.bind_some, h.functions, hkey, hvalue]
      rfl
    · refine h.setChain hi List.length_set ?_ ?_ ?_ hd' howns
      · intro j hj
        exact List.getElem?_set_ne (Ne.symm hj)
      · intro head hhead
        rw [List.getElem?_set_self (h.length_table ▸ hi), Option.some.injEq] at hhead
        subst hhead
        refine hback.congr fun b hb =>
          Function.update_of_ne (hrest ?_ b (addrs_nodes back ▸ hb)) _ _
        simp
      · intro b hb
        exact Function.update_of_ne (hrest (by simp) b hb) _ _
    · have hae : a ≠ e.value.addr := by
        rintro rfl
        exact ha (Function.update_self _ _ _)
      refine ⟨hae, ?_⟩
      rwa [← Function.update_of_ne hae none t.heap]
  · obtain ⟨head, hhead, hlinked⟩ := h.exists_head hi
    rw [hchain, List.append_assoc, List.singleton_append] at hlinked
    obtain ⟨hne', next', hnode', _⟩ := linked_get hlinked
    have hcat : before ++ [e'] ++ back = before ++ e' :: back := by simp
    rw [hcat] at hd' hnot ⊢
    have hnot' := not_mem_rest hd'
    have hrest' : ∀ {c : Entries K α V β}, c ⊆ before ++ back ++ Chain.around g.table i →
        ∀ b ∈ addrs c, b ≠ e'.value.addr := by
      rintro c hc b hb rfl
      exact hnot' (List.map_subset _ hc hb)
    have hee' : e.value.addr ≠ e'.value.addr :=
      Ne.symm (hrest (c := [e']) (by simp) _ (List.mem_singleton_self _))
    refine ⟨{ t with
        heap := Function.update t.heap e'.value.addr
          (some ⟨e'.value.key, e'.value.value, next⟩) }, { t with
        client := client₂
        heap := Function.update (Function.update t.heap e'.value.addr
          (some ⟨e'.value.key, e'.value.value, next⟩)) e.value.addr none }, ?_, ?_, ?_,
      fun a ha => ?_⟩
    · rw [Link.write, deref_eq hne', hnode']
      rfl
    · rw [hashTableFreeEntry, deref_eq hne]
      dsimp only
      rw [Function.update_of_ne hee', hnode]
      simp only [Option.bind_eq_bind, Option.bind_some, h.functions, hkey, hvalue]
      rfl
    · have hsame : ∀ {c : Entries K α V β}, c ⊆ before ++ back ++ Chain.around g.table i →
          ∀ b ∈ addrs c, Function.update (Function.update t.heap e'.value.addr
            (some ⟨e'.value.key, e'.value.value, next⟩)) e.value.addr none b = t.heap b := by
        intro c hc b hb
        rw [Function.update_of_ne (hrest (fun x hx => ?_) b hb),
          Function.update_of_ne (hrest' hc b hb)]
        have := hc hx
        simp only [List.mem_append, List.mem_singleton] at this ⊢
        tauto
      refine h.setChain hi rfl (fun _ _ => rfl) ?_ ?_ hd' (by simpa using howns)
      · intro head' hhead'
        have hlinked' := h.linked i head' hhead'
        rw [hchain, List.append_assoc, List.singleton_append, nodes, List.map_append,
          List.map_cons] at hlinked'
        rw [nodes, List.map_append, List.map_cons]
        have hwritten : Function.update (Function.update t.heap e'.value.addr
            (some ⟨e'.value.key, e'.value.value, next⟩)) e.value.addr none e'.value.addr =
            some ⟨e'.value.key, e'.value.value, next⟩ := by
          rw [Function.update_of_ne (Ne.symm hee'), Function.update_self]
        refine hlinked'.write (fun b hb => ?_) hwritten rfl (hback.congr fun b hb => ?_)
        · exact hsame (c := before) (by simp) b (addrs_nodes before ▸ hb)
        · exact hsame (c := back) (by simp) b (addrs_nodes back ▸ hb)
      · exact hsame (by simp)
    · have hae : a ≠ e.value.addr := by
        rintro rfl
        exact ha (Function.update_self _ _ _)
      refine ⟨hae, ?_⟩
      by_cases hae' : a = e'.value.addr
      · rw [hae', hnode']
        exact Option.some_ne_none _
      · dsimp only at ha
        rwa [Function.update_of_ne hae, Function.update_of_ne hae'] at ha

/-- The loop goes on along the chain until it comes to an entry with the key. -/
theorem removeLoop_spec {front rest : Entries K α V β} {rover : Link} (h : Holds o t g keys values)
    (hk : (k, s) ∈ keys) (hchain : g.chain (g.index s) = front ++ rest)
    (hnot : s ∉ Chain.keys front) (hrover : rover.After (g.index s) front)
    (hread : rover.read t = some p) (hlinked : (layout K V).Linked t.heap p (nodes rest))
    (hn : rest.length < n) :
    ∃ t', removeLoop t k n rover = some (t', (Redshell.hashTableRemove g s).2) ∧
      Holds o t' (Redshell.hashTableRemove g s).1 keys values := by
  have hi := h.wellFormed.index_lt s
  induction rest generalizing front rover p n with
  | nil =>
    obtain ⟨n, rfl⟩ := Nat.exists_eq_add_one_of_ne_zero (Nat.ne_of_gt hn)
    have hmissing : Redshell.hashTableRemove g s = (g, false) := by
      rw [Redshell.hashTableRemove, hchain, List.append_nil, Chain.unlink_eq_none_iff.mpr hnot]
    refine ⟨t, ?_, by rwa [hmissing]⟩
    rw [removeLoop, hread, hmissing]
    exact if_pos hlinked
  | cons e rest ih =>
    obtain ⟨n, rfl⟩ := Nat.exists_eq_add_one_of_ne_zero (Nat.ne_of_gt (Nat.zero_lt_of_lt hn))
    obtain ⟨rfl, hne, next, hnode, hrest⟩ := linked_cons hlinked
    have hmem : e ∈ g.chain (g.index s) := by simp [hchain]
    have hloop : removeLoop t k (n + 1) rover =
        if e.key = s then (rover.write t next).bind fun unlinked =>
          (hashTableFreeEntry unlinked e.value.addr).bind fun freed =>
          some ({ freed with entries := t.entries - 1 }, true)
        else removeLoop t k n (.next e.value.addr) := by
      rw [removeLoop, hread]
      simp only [Option.bind_eq_bind, Option.bind_some, if_neg hne, deref_eq hne, hnode,
        (h.same hk hi hmem).2, decide_eq_true_eq]
      rfl
    rw [hloop]
    by_cases hs : e.key = s
    · have hsplit := Chain.unlink_split (d := rest) hnot hs
      rw [← hchain] at hsplit
      have hfound : Redshell.hashTableRemove g s =
          ({ g.setChain (g.index s) (front ++ rest) with entries := g.entries - 1 }, true) := by
        rw [Redshell.hashTableRemove, hsplit]
      obtain ⟨hw, hperm⟩ := hashTableRemove_spec h.wellFormed s
      obtain ⟨unlinked, freed, hwrite, hfree, hchained, hheap⟩ :=
        h.unlink hi hchain hrover hne hnode hrest (t.entries - 1)
      refine ⟨{ freed with entries := t.entries - 1 }, ?_, ?_⟩
      · rw [if_pos hs, hwrite, Option.bind_some, hfree, hfound]
        rfl
      · refine ⟨?_, hw, fun a ha => ?_⟩
        · rw [hfound, ← h.entries]
          exact hchained
        · obtain ⟨hae, hold⟩ := hheap a ha
          obtain ⟨e', he', rfl⟩ := List.mem_map.mp (h.exact a hold)
          refine List.mem_map_of_mem (hperm.mem_iff.mpr (Chain.mem_others.mpr ⟨he', fun hes => ?_⟩))
          have hsame : e' = e := List.inj_on_of_nodup_map h.wellFormed.nodup he'
            (Chain.getD_subset hi hmem) (hes.trans hs.symm)
          exact hae (by rw [hsame])
    · rw [if_neg hs]
      have hchain' : g.chain (g.index s) = front ++ [e] ++ rest := by
        rw [hchain, List.append_assoc, List.singleton_append]
      have hnot' : s ∉ Chain.keys (front ++ [e]) := by
        rw [Chain.keys, List.map_append]
        intro hm
        rcases List.mem_append.mp hm with hm | hm
        · exact hnot hm
        · exact hs (List.mem_singleton.mp hm).symm
      have hread' : (Link.next e.value.addr).read t = some next := by
        rw [Link.read, deref_eq hne, hnode]
        rfl
      exact ih hchain' hnot' (.inr ⟨front, e, rfl, rfl⟩) hread' hrest (Nat.lt_of_succ_lt_succ hn)

theorem hashTableRemove_spec (h : Holds o t g keys values) (hk : (k, s) ∈ keys) :
    ∃ t', hashTableRemove t k = some (t', (Redshell.hashTableRemove g s).2) ∧
      Holds o t' (Redshell.hashTableRemove g s).1 keys values := by
  have hi := h.wellFormed.index_lt s
  have hindex : t.index k = some (g.index s) := h.index_eq (List.mem_append_right _ hk)
  obtain ⟨head, hhead, hlinked⟩ := h.exists_head hi
  obtain ⟨t', hloop, h'⟩ := removeLoop_spec h hk (List.nil_append _).symm List.not_mem_nil
    (.inl ⟨rfl, rfl⟩) hhead hlinked (h.turns hi)
  refine ⟨t', ?_, h'⟩
  rw [hashTableRemove, hindex]
  exact hloop

/-! Release. -/

/-- The walk over a chain frees its entries, their keys and their values. -/
theorem freeChain_spec (hf : t.functions = f) (hlinked : (layout K V).Linked t.heap p (nodes c))
    (hd : (addrs c).Nodup) (howns : o.Owns t.client (ownedKeys c ++ keys) (ownedValues c ++ values))
    (hn : c.length < n) :
    ∃ t', freeChain n t p = some t' ∧ t'.functions = f ∧ o.Owns t'.client keys values ∧
      ∀ a, t'.heap a = if a ∈ addrs c then none else t.heap a := by
  induction c generalizing t p n with
  | nil =>
    obtain ⟨n, rfl⟩ := Nat.exists_eq_add_one_of_ne_zero (Nat.ne_of_gt hn)
    exact ⟨t, if_pos hlinked, hf, howns, fun a => rfl⟩
  | cons e c ih =>
    obtain ⟨n, rfl⟩ := Nat.exists_eq_add_one_of_ne_zero (Nat.ne_of_gt (Nat.zero_lt_of_lt hn))
    obtain ⟨rfl, hne, next, hnode, hnext⟩ := linked_cons hlinked
    obtain ⟨hnot, hd⟩ := List.nodup_cons.mp hd
    obtain ⟨client₁, hkey, howns⟩ := o.freeKey howns
    obtain ⟨client₂, hvalue, howns⟩ := o.freeValue howns
    have hfree : hashTableFreeEntry t e.value.addr = some { t with
        client := client₂
        heap := Function.update t.heap e.value.addr none } := by
      rw [hashTableFreeEntry, deref_eq hne, hnode]
      simp only [Option.bind_eq_bind, Option.bind_some, hf, hkey, hvalue]
      rfl
    have hnext' :
        (layout K V).Linked (Function.update t.heap e.value.addr none) next (nodes c) := by
      refine hnext.congr fun b hb => Function.update_of_ne ?_ _ _
      rintro rfl
      rw [addrs_nodes] at hb
      exact hnot hb
    obtain ⟨t', hrun, hf', howns', hheap⟩ := ih (t := { t with
      client := client₂
      heap := Function.update t.heap e.value.addr none }) hf hnext' hd howns
      (Nat.lt_of_succ_lt_succ hn)
    refine ⟨t', ?_, hf', howns', fun a => ?_⟩
    · rw [freeChain, if_neg hne, deref_eq hne, hnode]
      simp only [Option.bind_eq_bind, Option.bind_some, hfree]
      exact hrun
    · rw [hheap]
      by_cases hac : a ∈ addrs c
      · rw [if_pos hac, if_pos (mem_addrs_cons.mpr (.inr hac))]
      · rw [if_neg hac]
        by_cases hae : a = e.value.addr
        · rw [if_pos (mem_addrs_cons.mpr (.inl hae)), hae]
          exact Function.update_self _ _ _
        · rw [if_neg fun hm => (mem_addrs_cons.mp hm).elim hae hac]
          exact Function.update_of_ne hae _ _

/-- Every chain of the array is freed. -/
theorem freeAll_spec {rows : List (Entries K α V β)} {heads : List Addr} (hf : t.functions = f)
    (hlen : heads.length = rows.length)
    (hlinked : ∀ i head, heads[i]? = some head →
      (layout K V).Linked t.heap head (nodes (rows.getD i [])))
    (hd : (addrs rows.flatten).Nodup)
    (howns : o.Owns t.client (ownedKeys rows.flatten ++ keys) (ownedValues rows.flatten ++ values))
    (hn : ∀ c ∈ rows, c.length < n) :
    ∃ t', freeAll n heads t = some t' ∧ o.Owns t'.client keys values ∧
      ∀ a, t'.heap a = if a ∈ addrs rows.flatten then none else t.heap a := by
  induction heads generalizing t rows with
  | nil =>
    obtain rfl := List.length_eq_zero_iff.mp hlen.symm
    exact ⟨t, rfl, howns, fun a => rfl⟩
  | cons head heads ih =>
    cases rows with
    | nil => cases hlen
    | cons c rows =>
      rw [List.flatten_cons] at hd howns ⊢
      rw [addrs_append] at hd
      have hdisj := List.disjoint_of_nodup_append hd
      have howns₁ : o.Owns t.client (ownedKeys c ++ (ownedKeys rows.flatten ++ keys))
          (ownedValues c ++ (ownedValues rows.flatten ++ values)) := by
        simpa [ownedKeys, ownedValues] using howns
      obtain ⟨t₁, hrun₁, hf₁, howns₁, hheap₁⟩ := freeChain_spec hf (hlinked 0 head rfl)
        hd.of_append_left howns₁ (hn c List.mem_cons_self)
      have hrest : ∀ i head, heads[i]? = some head →
          (layout K V).Linked t₁.heap head (nodes (rows.getD i [])) := by
        intro i head' hhead'
        refine (hlinked (i + 1) head' hhead').congr fun a ha => ?_
        rw [List.getD_cons_succ, addrs_nodes] at ha
        have hi : i < rows.length := by
          have := (List.getElem?_eq_some_iff.mp hhead').1
          rwa [Nat.succ.inj hlen] at this
        rw [hheap₁, if_neg]
        exact fun hc => hdisj hc (List.map_subset _ (Chain.getD_subset hi) ha)
      obtain ⟨t₂, hrun₂, howns₂, hheap₂⟩ := ih hf₁ (Nat.succ.inj hlen) hrest hd.of_append_right
        howns₁ fun c hc => hn c (List.mem_cons_of_mem _ hc)
      refine ⟨t₂, ?_, howns₂, fun a => ?_⟩
      · rw [freeAll, hrun₁]
        exact hrun₂
      · rw [hheap₂, hheap₁, addrs_append]
        change (if _ then none else if a ∈ addrs c then none else t.heap a) = _
        by_cases hrows : a ∈ addrs rows.flatten
        · rw [if_pos hrows, if_pos (List.mem_append_right _ hrows)]
        · rw [if_neg hrows]
          simp only [List.mem_append, hrows, or_false]

/-- Nothing of the table is left, only what its caller owns. -/
theorem hashTableFree_spec (h : Holds o t g keys values) :
    ∃ client, hashTableFree t = some (client, fun _ => none) ∧ o.Owns client keys values := by
  obtain ⟨t', hrun, howns, hheap⟩ :=
    freeAll_spec h.functions h.length_table h.linked h.distinct h.owns h.turns_all
  refine ⟨t'.client, ?_, howns⟩
  have hempty : t'.heap = fun _ => none := by
    funext a
    rw [hheap]
    split
    · rfl
    · next hnot =>
      by_contra hne
      exact hnot (h.exact a hne)
  rw [hashTableFree, hrun, Option.map_some, hempty]

end Redshell.LinkedTable
