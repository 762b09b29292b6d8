import Redshell.AliasMemoryCalls
import Redshell.AliasWalk

/-! The dictionary of builtins.c and helper.c is that in memory, when no allocation fails. -/
namespace Redshell.AliasMemory

open Call
open LinkedQueue (Addr null)

/-- The names of a dictionary, with their flags. -/
def namesOf (st : Aliases) : Names := fun k =>
  (hashTableLookup st.table k).map fun a => ((st.heap a).value, (st.heap a).inUse)

namespace Call

/-- The call on a dictionary without its memory. -/
def listed (st : Aliases) : Call → Reply × Aliases
  | cmdAlias argv _ =>
    let done := aliasWith st (argv.toList.map Word.text)
    (.returned done.1 done.2.1, done.2.2)
  | cmdUnalias argv =>
    let done := unaliasWith st (argv.toList.map Word.text)
    (.returned done.1 [], done.2)
  | getAlias key =>
    let got := Redshell.getAlias st key.text
    (.value got.1, got.2)
  | releaseAliases => (.nothing, Redshell.releaseAliases st)

def listedAll (st : Aliases) : List Call → List Reply × Aliases
  | [] => ([], st)
  | call :: calls =>
    let done := call.listed st
    let rest := listedAll done.2 calls
    (done.1 :: rest.1, rest.2)

/-- hash-table.c gets the memory that it asks for. -/
def Granted : Call → Prop
  | cmdAlias (some _) m => m.table = true ∧ m.node ≠ null
  | _ => True

end Call

variable {st : Aliases} {k v : CString} {names names₁ names₂ : Names} {call : Call}
  {calls : List Call}
  {reply reply' : Reply} {replies replies' : List Reply} {lost n : Nat}

theorem Call.Means.lost_eq_zero (h : Means names call reply lost names₁) (hg : call.Granted) :
    lost = 0 := by
  cases h with
  | lost hsplit hshort =>
    rcases hshort with hno | hnull
    · cases hno.symm.trans hg.1
    · exact absurd hnull hg.2
  | _ => rfl

theorem Call.Runs.lost_eq_zero (h : Runs names calls replies lost names₁)
    (hg : ∀ call ∈ calls, call.Granted) : lost = 0 := by
  induction h with
  | nil => rfl
  | cons hcall _ ih =>
    obtain ⟨hfirst, hrest⟩ := List.forall_mem_cons.mp hg
    rw [hcall.lost_eq_zero hfirst, ih hrest]

/-- The names after a call that loses nothing are determined. -/
theorem Call.Means.unique (h : Means names call reply 0 names₁)
    (h' : Means names call reply' 0 names₂) :
    names₁ = names₂ := by
  cases h with
  | listed => cases h'; rfl
  | refused hsplit =>
    cases h' with
    | refused => rfl
    | added hsplit' => cases hsplit.symm.trans hsplit'
  | added hsplit =>
    cases h' with
    | refused hsplit' => cases hsplit.symm.trans hsplit'
    | added hsplit' =>
      cases hsplit.symm.trans hsplit'
      rfl
  | missing => cases h'; rfl
  | removed => cases h'; rfl
  | got hname =>
    cases h' with
    | got hname' =>
      cases hname.symm.trans hname'
      rfl
    | idle hname' => exact absurd hname (hname' _)
  | idle hname =>
    cases h' with
    | got hname' => exact absurd hname' (hname _)
    | idle => rfl
  | released => cases h'; rfl

theorem Call.Runs.unique {lost' : Nat} (h : Runs names calls replies lost names₁)
    (h' : Runs names calls replies' lost' names₂) (h0 : lost = 0) (h0' : lost' = 0) :
    names₁ = names₂ := by
  induction h generalizing replies' lost' with
  | nil =>
    cases h'
    rfl
  | cons hcall _ ih =>
    cases h' with
    | cons hcall' hcalls' =>
      obtain ⟨rfl, hrest⟩ := Nat.add_eq_zero_iff.mp h0
      obtain ⟨rfl, hrest'⟩ := Nat.add_eq_zero_iff.mp h0'
      obtain rfl := hcall.unique hcall'
      exact ih hcalls' hrest hrest'

/-! The calls on the dictionary without its memory. -/

theorem namesOf_eq_some {a : Nat} (hl : hashTableLookup st.table k = some a) :
    namesOf st k = some ((st.heap a).value, (st.heap a).inUse) := by
  rw [namesOf, hl]
  rfl

theorem namesOf_addAlias (h : st.Valid) (hk : (hashTableInsert st.table k st.fresh).2 = true) :
    namesOf (Redshell.addAlias st k v) = Function.update (namesOf st) k (some (v, 0)) := by
  funext k'
  rw [namesOf, addAlias_table, addAlias_heap, hashTableLookup_insert h.wellFormed hk,
    Function.update_apply]
  split
  · simp [Redshell.aliasNew]
  · cases hl : hashTableLookup st.table k' with
    | none => simp [namesOf, hl]
    | some a =>
      have he := (hashTableLookup_eq_some_iff h.wellFormed).mp hl
      have hheap := heap_aliasNew_of_mem (v := v) h he
      simp only at hheap
      rw [namesOf_eq_some hl, Option.map_some, hheap]

theorem namesOf_removeAlias (h : st.Valid) :
    namesOf (Redshell.removeAlias st k) = Function.update (namesOf st) k none := by
  funext k'
  rw [namesOf, removeAlias_table, hashTableLookup_remove h.wellFormed, Function.update_apply]
  split <;> rfl

theorem namesOf_setInUse (h : st.Valid) {a : Nat} (hl : hashTableLookup st.table k = some a)
    (inUse : Int) :
    namesOf (Redshell.setInUse st a inUse) =
      Function.update (namesOf st) k (some ((st.heap a).value, inUse)) := by
  have hmem := (hashTableLookup_eq_some_iff h.wellFormed).mp hl
  funext k'
  rw [Function.update_apply]
  by_cases hk : k' = k
  · subst hk
    rw [if_pos rfl]
    simp [namesOf, Redshell.setInUse, hl]
  · rw [if_neg hk]
    cases hl' : hashTableLookup st.table k' with
    | none => simp [namesOf, Redshell.setInUse, hl']
    | some b =>
      have hmem' := (hashTableLookup_eq_some_iff h.wellFormed).mp hl'
      have hba : b ≠ a := by
        rintro rfl
        exact hk (congrArg Chain.Entry.key (h.eq_of_value hmem' hmem rfl))
      simp [namesOf, Redshell.setInUse, hl', hba]

theorem namesOf_releaseAliases (h : st.Valid) :
    namesOf (Redshell.releaseAliases st) = fun k => (namesOf st k).map fun name => (name.1, 0) := by
  obtain ⟨hsame, hreleased⟩ := Redshell.releaseAliases_spec h.wellFormed
  funext k
  cases hl : hashTableLookup st.table k with
  | none => simp [namesOf, hsame.table_eq, hl]
  | some a =>
    have hmem := (hashTableLookup_eq_some_iff h.wellFormed).mp hl
    have hflag : ((Redshell.releaseAliases st).heap a).inUse = 0 :=
      hreleased ⟨k, a⟩ (hsame.table_eq ▸ hmem)
    simp [namesOf, hsame.table_eq, hl, hsame.value_eq, hflag]

/-- A valid dictionary with fewer than `n` names. -/
structure Kept (n : Nat) (st : Aliases) : Prop where
  valid : st.Valid
  primeSized : st.table.PrimeSized
  entries_le : st.table.entries ≤ n

theorem Kept.same (h : Kept n st) {st' : Aliases} (hsame : st.SameMap st') : Kept (n + 1) st' where
  valid := hsame.valid h.valid
  primeSized := hsame.table_eq ▸ h.primeSized
  entries_le := by
    rw [hsame.table_eq]
    exact h.entries_le.trans (by push_cast; omega)

/-- The printed lines are a listing of the names. -/
theorem listed_printAliases (h : st.Valid) {m : Grants} :
    Means (namesOf st) (.cmdAlias none m) (.returned 0 (Redshell.printAliases st)) 0
      (namesOf st) := by
  obtain ⟨_, _, honce, _, hprinted, _⟩ := walkedOnce_contents h
  have hlisting : Redshell.printAliases st =
      (st.table.contents.map fun e => (e.key, (st.heap e.value).value)).flatMap
        fun e => e.1 ++ bytes "='" ++ e.2 ++ bytes "'\n" := by
    rw [hprinted, List.flatMap_map]
    rfl
  rw [hlisting]
  refine .listed _ (by rw [List.map_map]; exact honce) fun k v => ?_
  rw [List.mem_map]
  constructor
  · rintro ⟨e, he, hpair⟩
    cases hpair
    exact ⟨_, namesOf_eq_some ((hashTableLookup_eq_some_iff h.wellFormed).mpr he)⟩
  · rintro ⟨inUse, hname⟩
    obtain ⟨a, hl, hpair⟩ := Option.map_eq_some_iff.mp hname
    cases hpair
    exact ⟨⟨k, a⟩, (hashTableLookup_eq_some_iff h.wellFormed).mp hl, rfl⟩

theorem listed_spec (h : Kept n st) (hn : n < 500000000) (call : Call) :
    Means (namesOf st) call (call.listed st).1 0 (namesOf (call.listed st).2) ∧
      Kept (n + 1) (call.listed st).2 := by
  have h0 : 0 ≤ st.table.entries := by
    rw [h.valid.wellFormed.count]
    exact Int.natCast_nonneg _
  have hlt : st.table.entries < 500000000 := by
    have hle := h.entries_le
    omega
  cases call with
  | cmdAlias argv m =>
    cases argv with
    | none => exact ⟨listed_printAliases h.valid, h.same (.refl st)⟩
    | some word =>
      cases hsplit : splitAtEquals word.text with
      | none =>
        have hlisted : (Call.cmdAlias (some word) m).listed st = (.returned (-1) [], st) := by
          simp [Call.listed, aliasWith, hsplit]
        rw [hlisted]
        exact ⟨.refused hsplit, h.same (.refl st)⟩
      | some pair =>
        obtain ⟨k, v⟩ := pair
        have hlisted : (Call.cmdAlias (some word) m).listed st =
            (.returned 0 [], Redshell.addAlias st k v) := by
          simp [Call.listed, aliasWith, hsplit]
        obtain ⟨hinserted, hsized⟩ :=
          hashTableInsert_primeSized (k := k) (v := st.fresh) h.primeSized h0 hlt
        rw [hlisted, namesOf_addAlias h.valid hinserted]
        refine ⟨.added hsplit, addAlias_valid h.valid k v, hsized, ?_⟩
        have hentries := entries_insert_le (k := k) h.valid.wellFormed st.fresh
        have hle := h.entries_le
        rw [addAlias_table]
        push_cast
        omega
  | cmdUnalias argv =>
    cases argv with
    | none => exact ⟨.missing, h.same (.refl st)⟩
    | some word =>
      change Means _ _ _ 0 (namesOf (Redshell.removeAlias st word.text)) ∧
        Kept (n + 1) (Redshell.removeAlias st word.text)
      rw [namesOf_removeAlias h.valid]
      refine ⟨.removed, removeAlias_valid h.valid _, hashTableRemove_primeSized h.primeSized, ?_⟩
      have hentries := entries_remove_le (k := word.text) h.valid.wellFormed
      have hle := h.entries_le
      rw [removeAlias_table]
      push_cast
      omega
  | getAlias key =>
    refine ⟨?_, h.same (getAlias_sameMap h.valid key.text)⟩
    change Means _ _ (.value (Redshell.getAlias st key.text).1) 0
      (namesOf (Redshell.getAlias st key.text).2)
    cases hl : hashTableLookup st.table key.text with
    | none =>
      have hget : Redshell.getAlias st key.text = (none, st) := by simp [Redshell.getAlias, hl]
      rw [hget]
      exact .idle fun v => by simp [namesOf, hl]
    | some a =>
      by_cases hflag : (st.heap a).inUse = 0
      · have hget : Redshell.getAlias st key.text =
            (some (st.heap a).value, Redshell.setInUse st a 1) := by
          simp [Redshell.getAlias, hl, hflag]
        rw [hget, namesOf_setInUse h.valid hl]
        exact .got (by rw [namesOf_eq_some hl, hflag])
      · have hget : Redshell.getAlias st key.text = (none, st) := by
          simp [Redshell.getAlias, hl, hflag]
        rw [hget]
        refine .idle fun v hname => hflag ?_
        exact (Prod.mk.inj (Option.some.inj ((namesOf_eq_some hl).symm.trans hname))).2
  | releaseAliases =>
    change Means _ _ _ 0 (namesOf (Redshell.releaseAliases st)) ∧
      Kept (n + 1) (Redshell.releaseAliases st)
    rw [namesOf_releaseAliases h.valid]
    exact ⟨.released, h.same (Redshell.releaseAliases_spec h.valid.wellFormed).1⟩

theorem listedAll_spec (calls : List Call) (h : Kept n st) (hn : n + calls.length ≤ 500000000) :
    Runs (namesOf st) calls (listedAll st calls).1 0 (namesOf (listedAll st calls).2) := by
  induction calls generalizing n st with
  | nil => exact .nil
  | cons call calls ih =>
    rw [List.length_cons] at hn
    obtain ⟨hmeans, hkept⟩ := listed_spec h (by omega) call
    exact .cons hmeans (ih hkept (by omega))

theorem namesOf_empty : namesOf Dictionary.empty.toAliases = fun _ => none := by
  funext k
  exact Option.map_eq_none_iff.mpr (Option.map_eq_none_iff.mp (Dictionary.find_empty k))

/-- When hash-table.c gets its memory, a run in memory and the run on the dictionary without it are
answered as the same finite map is, and end with the same names; and destroying the one in memory
then leaves nothing allocated. -/
theorem dictionary_in_memory_agrees (calls : List Call) (hn : calls.length ≤ 500000000)
    (hgranted : ∀ call ∈ calls, call.Granted) (t₀ : Table)
    (h₀ : initializeAliases { strings := fun _ => none, aliases := fun _ => none } true = some t₀)
    (hserved : ServedAll t₀ calls) :
    ∃ replies t names, runAll t₀ calls = some (replies, t) ∧
      Runs (fun _ => none) calls replies 0 names ∧
      Runs (fun _ => none) calls (listedAll Dictionary.empty.toAliases calls).1 0 names ∧
      namesOf (listedAll Dictionary.empty.toAliases calls).2 = names ∧
      destroyAliases t = some
        ({ strings := fun _ => none, aliases := fun _ => none }, fun _ => none) := by
  obtain ⟨t, ht, h⟩ := initializeAliases_spec
  cases h₀.symm.trans ht
  obtain ⟨replies, t, names, keys, values, lost, hrun, hruns, h, hk, hv⟩ :=
    runAll_spec calls h (by omega) hserved
  obtain rfl := hruns.lost_eq_zero hgranted
  obtain rfl := List.eq_nil_of_length_eq_zero hk
  obtain rfl := List.eq_nil_of_length_eq_zero hv
  have hkept : Kept 0 Dictionary.empty.toAliases := by
    obtain ⟨hvalid, _, hsized, hempty⟩ :=
      Redshell.initializeAliases_spec (Option.some_get Dictionary.initializeAliases_isSome).symm
    have hcount := hvalid.wellFormed.count
    rw [hempty] at hcount
    exact ⟨hvalid, hsized, hcount.le⟩
  have hlisted := listedAll_spec calls hkept (by omega)
  rw [namesOf_empty] at hlisted
  have hsame := hlisted.unique hruns rfl rfl
  rw [hsame] at hlisted
  obtain ⟨c, hdestroy, howned⟩ := destroyAliases_spec h
  refine ⟨replies, t, names, hrun, hruns, hlisted, hsame, ?_⟩
  obtain ⟨strings, aliases⟩ := c
  obtain rfl := howned.strings.eq_none
  obtain rfl := howned.aliases.eq_none
  exact hdestroy

/-- `alias a=1`. -/
theorem dictionary_in_memory_agrees_a :
    ∃ t₀, initializeAliases { strings := fun _ => none, aliases := fun _ => none } true = some t₀ ∧
      ∃ replies t names,
        runAll t₀ [.cmdAlias (some ⟨1, bytes "a=1"⟩) ⟨2, 3, 4, 5, 6, true⟩] = some (replies, t) ∧
        Runs (fun _ => none) [.cmdAlias (some ⟨1, bytes "a=1"⟩) ⟨2, 3, 4, 5, 6, true⟩] replies 0
          names ∧
        Runs (fun _ => none) [.cmdAlias (some ⟨1, bytes "a=1"⟩) ⟨2, 3, 4, 5, 6, true⟩]
          (listedAll Dictionary.empty.toAliases
            [.cmdAlias (some ⟨1, bytes "a=1"⟩) ⟨2, 3, 4, 5, 6, true⟩]).1 0 names ∧
        namesOf (listedAll Dictionary.empty.toAliases
          [.cmdAlias (some ⟨1, bytes "a=1"⟩) ⟨2, 3, 4, 5, 6, true⟩]).2 = names ∧
        destroyAliases t =
          some ({ strings := fun _ => none, aliases := fun _ => none }, fun _ => none) := by
  have hgranted : ∀ call ∈ [Call.cmdAlias (some ⟨1, bytes "a=1"⟩) ⟨2, 3, 4, 5, 6, true⟩],
      call.Granted := List.forall_mem_singleton.mpr ⟨rfl, by decide⟩
  refine ⟨_, rfl, dictionary_in_memory_agrees _ (by decide) hgranted _ rfl
    ⟨⟨?_, ?_⟩, fun _ _ _ => trivial⟩⟩
  · exact ⟨by decide, rfl⟩
  · refine ⟨?_, by decide, ⟨by decide, rfl⟩, rfl⟩
    intro p hp
    simp only [List.mem_cons, List.not_mem_nil, or_false] at hp
    rcases hp with rfl | rfl | rfl <;> exact ⟨by decide, rfl⟩

end Redshell.AliasMemory
