import Redshell.Builtins
import Redshell.Helper

/-! Runs of the alias operations: the dictionary as a finite map that no expansion changes. -/
namespace Redshell

/-! Aliases added, removed and expanded in any order. -/

inductive AliasCall where
  | add (key value : CString)
  | remove (key : CString)
  | expand (command : CString)

namespace AliasCall

def run (st : Aliases) : AliasCall → Aliases
  | add key value => addAlias st key value
  | remove key => removeAlias st key
  | expand command => (expandAlias st command).2

def runAll (st : Aliases) (calls : List AliasCall) : Aliases := calls.foldl run st

end AliasCall

variable {st st' : Aliases} {k v command : CString}

theorem expandAlias_snd (h : st.Valid) (hr : st.Released) (command : CString) :
    (expandAlias st command).2 = st := by
  obtain ⟨final, _, he⟩ := expandAlias_spec h hr command
  rw [he]

theorem run_valid_released (c : AliasCall) (h : st.Valid ∧ st.Released) :
    (c.run st).Valid ∧ (c.run st).Released := by
  obtain ⟨hv, hr⟩ := h
  cases c with
  | add key value => exact ⟨addAlias_valid hv key value, addAlias_released hv hr⟩
  | remove key => exact ⟨removeAlias_valid hv key, removeAlias_released hv hr⟩
  | expand command =>
    rw [AliasCall.run, expandAlias_snd hv hr]
    exact ⟨hv, hr⟩

theorem runAll_valid_released (calls : List AliasCall) (h : st.Valid ∧ st.Released) :
    (AliasCall.runAll st calls).Valid ∧ (AliasCall.runAll st calls).Released := by
  induction calls generalizing st with
  | nil => exact h
  | cons c calls ih => exact ih (run_valid_released c h)

/-- What an expansion gives depends on the map alone. -/
theorem expandAlias_fst_congr (h : st.Valid) (hr : st.Released) (h' : st'.Valid)
    (hr' : st'.Released) (hm : st'.find = st.find) (command : CString) :
    (expandAlias st' command).1 = (expandAlias st command).1 := by
  obtain ⟨final, hrounds, he⟩ := expandAlias_spec h hr command
  obtain ⟨final', hrounds', he'⟩ := expandAlias_spec h' hr' command
  rw [hm] at hrounds'
  rw [he, he', hrounds.unique hrounds']

/-- In every state between two calls no alias is in use, so expansions neither change the map
nor depend on anything but it. -/
theorem aliases_released_between_calls (st₀ : Aliases) (h₀ : initializeAliases = some st₀)
    (calls : List AliasCall) :
    (∀ e ∈ (AliasCall.runAll st₀ calls).table.contents,
      ((AliasCall.runAll st₀ calls).heap e.value).inUse = 0) ∧
    (∀ command, (expandAlias (AliasCall.runAll st₀ calls) command).2.find =
      (AliasCall.runAll st₀ calls).find) ∧
    (∀ calls' command,
      (AliasCall.runAll st₀ calls').find = (AliasCall.runAll st₀ calls).find →
      (expandAlias (AliasCall.runAll st₀ calls') command).1 =
        (expandAlias (AliasCall.runAll st₀ calls) command).1) ∧
    (∀ (expanded : List CString) (command : CString),
      (expandAlias (AliasCall.runAll st₀ (calls ++ expanded.map AliasCall.expand)) command).1 =
        (expandAlias (AliasCall.runAll st₀ calls) command).1) := by
  have hinit : st₀.Valid ∧ st₀.Released :=
    ⟨(initializeAliases_spec h₀).1, (initializeAliases_spec h₀).2.1⟩
  have hrun := fun calls => runAll_valid_released calls hinit
  obtain ⟨hv, hr⟩ := hrun calls
  refine ⟨hr, ?_, ?_, ?_⟩
  · intro command
    rw [expandAlias_snd hv hr]
  · intro calls' command hm
    obtain ⟨hv', hr'⟩ := hrun calls'
    exact expandAlias_fst_congr hv hr hv' hr' hm command
  · intro expanded command
    have hsame : AliasCall.runAll st₀ (calls ++ expanded.map .expand) =
        AliasCall.runAll st₀ calls := by
      rw [AliasCall.runAll, List.foldl_append, ← AliasCall.runAll, ← AliasCall.runAll]
      induction expanded with
      | nil => rfl
      | cons c expanded ih =>
        change AliasCall.runAll (expandAlias _ c).2 _ = _
        rw [expandAlias_snd hv hr]
        exact ih
    rw [hsame]

/-- After one addition and one expansion. -/
theorem aliases_released_between_calls_ls :
    (AliasCall.runAll Dictionary.empty.toAliases
      [.add (bytes "ls") (bytes "ls -l"), .expand (bytes "ls /tmp")]).table.contents.all
      (fun e => ((AliasCall.runAll Dictionary.empty.toAliases
        [.add (bytes "ls") (bytes "ls -l"), .expand (bytes "ls /tmp")]).heap e.value).inUse = 0)
      = true := by
  rw [List.all_eq_true]
  intro e he
  apply decide_eq_true
  exact (aliases_released_between_calls Dictionary.empty.toAliases
    (Option.some_get Dictionary.initializeAliases_isSome).symm
    [.add (bytes "ls") (bytes "ls -l"), .expand (bytes "ls /tmp")]).1 e he

/-! The dictionary under `alias`, `unalias` and lookups. -/

/-- `define` is `cmd_alias` with an argument that has an `=`. -/
inductive AliasOp where
  | define (arg : CString) (rest : List CString) (h : ∃ c ∈ arg, isEquals c = true)
  | remove (name : CString) (rest : List CString)
  | lookup (name : CString)

namespace AliasOp

def run (st : Aliases) : AliasOp → Aliases
  | define arg rest _ => (aliasWith st (arg :: rest)).2.2
  | remove name rest => (unaliasWith st (name :: rest)).2
  | lookup name => (getAlias st name).2

def runAll (st : Aliases) (ops : List AliasOp) : Aliases := ops.foldl run st

/-- The name whose alias the operation changes. -/
def name : AliasOp → Option CString
  | define arg _ _ => some (Cut.before isEquals arg)
  | remove name _ => some name
  | lookup _ => none

/-- The operation gives `k` the value `v`. -/
def Defines (k v : CString) : AliasOp → Prop
  | define arg _ _ => Cut.before isEquals arg = k ∧ (Cut.onward isEquals arg).tail = v
  | _ => False

/-- `v` is what the most recent definition of `k` gave it, and no later removal follows. -/
def Latest (ops : List AliasOp) (k v : CString) : Prop :=
  ∃ pre op post, ops = pre ++ op :: post ∧ op.Defines k v ∧ ∀ later ∈ post, later.name ≠ some k

/-- The names that have an alias. -/
def live (ops : List AliasOp) : Set CString := {k | ∃ v, Latest ops k v}

variable {op : AliasOp} {ops : List AliasOp}

theorem Defines.name_eq (h : op.Defines k v) : op.name = some k := by
  cases op with
  | define arg rest he => exact congrArg some h.1
  | remove => cases h
  | lookup => cases h

theorem not_latest_nil : ¬ Latest [] k v := by
  rintro ⟨pre, op, post, h, _⟩
  simp at h

theorem latest_concat_iff :
    Latest (ops ++ [op]) k v ↔ op.Defines k v ∨ op.name ≠ some k ∧ Latest ops k v := by
  constructor
  · rintro ⟨pre, found, post, h, hd, hl⟩
    rcases List.eq_nil_or_concat post with rfl | ⟨post, last, rfl⟩
    · obtain ⟨_, h⟩ := List.append_inj' h rfl
      obtain rfl := List.singleton_inj.mp h
      exact Or.inl hd
    · rw [List.concat_eq_append] at h hl
      rw [← List.cons_append, ← List.append_assoc] at h
      obtain ⟨rfl, hlast⟩ := List.append_inj' h rfl
      obtain rfl := List.singleton_inj.mp hlast
      exact Or.inr ⟨hl _ (by simp), pre, found, post, rfl, hd, fun l hm => hl l (by simp [hm])⟩
  · rintro (hd | ⟨hn, pre, found, post, rfl, hd, hl⟩)
    · exact ⟨ops, op, [], rfl, hd, by simp⟩
    · refine ⟨pre, found, post ++ [op], by simp, hd, fun l hm => ?_⟩
      rcases List.mem_append.mp hm with hm | hm
      · exact hl l hm
      · rwa [List.mem_singleton.mp hm]

theorem live_subset (ops : List AliasOp) : live ops ⊆ (ops.filterMap name).toFinset := by
  rintro k ⟨v, pre, op, post, rfl, hd, _⟩
  simp [hd.name_eq]

theorem ncard_live_le (ops : List AliasOp) : (live ops).ncard ≤ ops.length := by
  have hle := Set.ncard_le_ncard (live_subset ops) (Finset.finite_toSet _)
  rw [Set.ncard_coe_finset] at hle
  exact hle.trans ((List.toFinset_card_le _).trans (List.length_filterMap_le _ _))

end AliasOp

open AliasOp

variable {op : AliasOp} {ops : List AliasOp}

theorem getAlias_sameMap (h : st.Valid) (k : CString) : st.SameMap (getAlias st k).2 := by
  cases hl : hashTableLookup st.table k with
  | none =>
    have hget : getAlias st k = (none, st) := by simp [getAlias, hl]
    exact hget ▸ .refl st
  | some a =>
    have hmem := (hashTableLookup_eq_some_iff h.wellFormed).mp hl
    by_cases h0 : (st.heap a).inUse = 0
    · have hget : (getAlias st k).2 = setInUse st a 1 := by simp [getAlias, hl, h0]
      exact hget ▸ Aliases.sameMap_setInUse (List.mem_map_of_mem (f := (·.value)) hmem) 1
    · have hget : getAlias st k = (none, st) := by simp [getAlias, hl, h0]
      exact hget ▸ .refl st

theorem run_define {arg : CString} {rest : List CString} (h : ∃ c ∈ arg, isEquals c = true) :
    (AliasOp.define arg rest h).run st =
      addAlias st (Cut.before isEquals arg) (Cut.onward isEquals arg).tail := by
  have hne : Cut.onward isEquals arg ≠ [] := by
    intro hnil
    obtain ⟨c, hc, he⟩ := h
    simp [Cut.onward_eq_nil_iff.mp hnil c hc] at he
  simp [run, aliasWith, splitAtEquals_eq, hne]

/-- The dictionary is a valid one in which lookups find what `ops` defined last. -/
structure Tracks (st : Aliases) (ops : List AliasOp) : Prop where
  valid : st.Valid
  primeSized : st.table.PrimeSized
  find_iff : ∀ k v, st.find k = some v ↔ Latest ops k v

theorem Tracks.entries (h : Tracks st ops) :
    hashTableNumEntries st.table = ((live ops).ncard : Int) := by
  have hlive : live ops = ((Chain.keys st.table.contents).toFinset : Set CString) := by
    ext k
    have hn := Aliases.find_eq_none_iff (k := k) h.valid
    rw [Finset.mem_coe, List.mem_toFinset, ← not_iff_not, ← hn]
    cases hf : st.find k with
    | none => simp [live, ← h.find_iff, hf]
    | some v => simp [live, ← h.find_iff, hf]
  rw [hlive, Set.ncard_coe_finset, List.toFinset_card_of_nodup h.valid.wellFormed.nodup,
    Chain.keys, List.length_map]
  exact h.valid.wellFormed.count

/-- An insertion below 500 million names succeeds, so every operation is one on the map. -/
theorem Tracks.find_run (h : Tracks st ops) (hn : (live ops).ncard < 500000000) (op : AliasOp) :
    ((op.run st).find k = some v ↔ op.Defines k v ∨ op.name ≠ some k ∧ st.find k = some v) := by
  cases op with
  | define arg rest he =>
    have hentries := h.entries
    rw [hashTableNumEntries] at hentries
    have hk := hashTableInsert_primeSized (k := Cut.before isEquals arg) (v := st.fresh)
      h.primeSized (by omega) (by omega)
    rw [run_define he, find_addAlias h.valid hk.1]
    by_cases hkk : k = Cut.before isEquals arg
    · simp [Defines, name, hkk]
    · simp [Defines, name, hkk, Ne.symm hkk]
  | remove key rest =>
    change (removeAlias st key).find k = some v ↔ _
    rw [find_removeAlias h.valid]
    by_cases hkk : k = key
    · simp [Defines, name, hkk]
    · simp [Defines, name, hkk, Ne.symm hkk]
  | lookup key =>
    change (getAlias st key).2.find k = some v ↔ _
    rw [(getAlias_sameMap h.valid key).find_eq]
    simp [Defines, name]

theorem Tracks.run (h : Tracks st ops) (hn : (live ops).ncard < 500000000) (op : AliasOp) :
    Tracks (op.run st) (ops ++ [op]) where
  valid := by
    cases op with
    | define arg rest he => exact run_define he ▸ addAlias_valid h.valid _ _
    | remove key rest => exact removeAlias_valid h.valid key
    | lookup key => exact (getAlias_sameMap h.valid key).valid h.valid
  primeSized := by
    cases op with
    | define arg rest he =>
      have hentries := h.entries
      rw [hashTableNumEntries] at hentries
      rw [run_define he, addAlias_table]
      exact (hashTableInsert_primeSized h.primeSized (by omega) (by omega)).2
    | remove key rest => exact hashTableRemove_primeSized h.primeSized
    | lookup key =>
      change (getAlias st key).2.table.PrimeSized
      rw [(getAlias_sameMap h.valid key).table_eq]
      exact h.primeSized
  find_iff k v := by
    rw [h.find_run hn, latest_concat_iff, h.find_iff]

theorem tracks_empty : Tracks Dictionary.empty.toAliases [] where
  valid := Dictionary.empty.valid
  primeSized :=
    (initializeAliases_spec (Option.some_get Dictionary.initializeAliases_isSome).symm).2.2.1
  find_iff k v := by
    rw [Dictionary.find_empty]
    simp [not_latest_nil]

theorem tracks_runAll (ops : List AliasOp)
    (hn : ∀ pre, pre <+: ops → (live pre).ncard < 500000000) :
    Tracks (runAll Dictionary.empty.toAliases ops) ops := by
  induction ops using List.reverseRecOn with
  | nil => exact tracks_empty
  | append_singleton ops op ih =>
    have htracks := ih fun pre hp => hn pre (hp.trans (List.prefix_append ops [op]))
    have hstep := htracks.run (hn ops (List.prefix_append ops [op])) op
    simpa [runAll] using hstep

/-- The store is a finite map: a lookup finds the latest definition, names are stored once, the
count is that of the live names, and an operation leaves the other names alone. -/
theorem alias_store_is_finite_map (ops : List AliasOp)
    (hn : ∀ pre, pre <+: ops → (live pre).ncard < 500000000) :
    (∀ k v, (runAll Dictionary.empty.toAliases ops).find k = some v ↔ Latest ops k v) ∧
    (∀ k, (runAll Dictionary.empty.toAliases ops).find k = none ↔ ¬ ∃ v, Latest ops k v) ∧
    (Chain.keys (runAll Dictionary.empty.toAliases ops).table.contents).Nodup ∧
    hashTableNumEntries (runAll Dictionary.empty.toAliases ops).table = ((live ops).ncard : Int) ∧
    ∀ (op : AliasOp) (k : CString), op.name ≠ some k →
      (op.run (runAll Dictionary.empty.toAliases ops)).find k =
        (runAll Dictionary.empty.toAliases ops).find k := by
  have h := tracks_runAll ops hn
  refine ⟨h.find_iff, fun k => ?_, h.valid.wellFormed.nodup, h.entries, fun op k hname => ?_⟩
  · simp only [← h.find_iff]
    cases (runAll Dictionary.empty.toAliases ops).find k <;> simp
  · apply Option.ext
    intro v
    rw [h.find_run (hn ops (List.prefix_refl ops))]
    have hd : ¬ op.Defines k v := fun hd => hname hd.name_eq
    simp [hd, hname]

/-- `alias a=1`, `alias a=2=3`, a lookup, `alias b=`, `unalias b`. -/
theorem alias_store_is_finite_map_ab :
    (runAll Dictionary.empty.toAliases
        [.define (bytes "a=1") [] ⟨61, by decide, rfl⟩,
         .define (bytes "a=2=3") [] ⟨61, by decide, rfl⟩, .lookup (bytes "a"),
         .define (bytes "b=") [] ⟨61, by decide, rfl⟩, .remove (bytes "b") []]).find (bytes "a") =
      some (bytes "2=3") := by
  rw [(alias_store_is_finite_map _ ?_).1]
  · refine ⟨[.define (bytes "a=1") [] _], .define (bytes "a=2=3") [] _, [_, _, _], rfl, ?_, ?_⟩
    · exact ⟨by decide, by decide⟩
    · decide
  · intro pre hp
    have hlen := hp.length_le
    have hle := ncard_live_le pre
    simp only [List.length_cons, List.length_nil] at hlen
    omega

end Redshell
