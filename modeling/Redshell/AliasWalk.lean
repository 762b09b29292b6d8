import Redshell.AliasMap
import Redshell.AliasRounds

/-! The loops of `printAliases` and `releaseAliases`: what their iterator hands out. -/
namespace Redshell

variable {st : Aliases} {entries : List (HashTableEntry CString Nat)} {n : Nat}

/-- The line that `printAliases` writes for an entry. -/
def printedEntry (st : Aliases) (e : HashTableEntry CString Nat) : List UInt8 :=
  e.key ++ bytes "='" ++ (st.heap e.value).value ++ bytes "'\n"

/-- The loop writes the entries of its walk, when its turns suffice for them. -/
theorem printLoop_walks {it : HashTableIterator CString Nat}
    (h : Walks hashTableIterHasMore hashTableIterNextEntry it entries) (hn : entries.length ≤ n) :
    printLoop st n it = entries.flatMap (printedEntry st) := by
  induction h generalizing n with
  | stop hmore =>
    cases n with
    | zero => rfl
    | succ n => simp [printLoop, hmore]
  | @turn it it' e entries hmore hnext _ ih =>
    cases n with
    | zero => cases hn
    | succ n =>
      have hrest := ih (Nat.le_of_succ_le_succ hn)
      simp [printLoop, hmore, hnext, hrest, printedEntry]

/-- Both loops end after the same entries, and these are the dictionary. -/
structure WalkedOnce (st : Aliases) (entries : List (HashTableEntry CString Nat)) : Prop where
  listed : Walks hashTableIterHasMore hashTableIterNextEntry (hashTableIterate st.table) entries
  released : Walks hashTableIterHasMore hashTableIterNext (hashTableIterate st.table)
    (entries.map (·.value))
  once : (Chain.keys entries).Nodup
  live : ∀ k v, st.find k = some v ↔ ∃ e ∈ entries, e.key = k ∧ (st.heap e.value).value = v
  printed : printAliases st = entries.flatMap (printedEntry st)
  cleared : releaseAliases st =
    (entries.map (·.value)).foldl (fun st addr => setInUse st addr 0) st

theorem walkedOnce_contents (h : st.Valid) : WalkedOnce st st.table.contents := by
  have hcount : (hashTableNumEntries st.table).toNat = st.table.contents.length := by
    rw [hashTableNumEntries, h.wellFormed.count, Int.toNat_natCast]
  obtain ⟨hvalid, hremaining⟩ := hashTableIterate_spec h.wellFormed.length_table
  have hlisted := walks_remaining hvalid
  rw [hremaining] at hlisted
  have hreleased := hlisted.map hashTableIterNext_eq
  refine ⟨hlisted, hreleased, h.wellFormed.nodup, fun k v => ?_, ?_, ?_⟩
  · rw [Aliases.find_eq_some_iff h]
    constructor
    · rintro ⟨a, hmem, hv⟩
      exact ⟨⟨k, a⟩, hmem, rfl, hv⟩
    · rintro ⟨e, hmem, rfl, hv⟩
      exact ⟨e.value, hmem, hv⟩
  · exact printLoop_walks hlisted hcount.ge
  · exact releaseLoop_walks hreleased (by rw [List.length_map, hcount])

/-- In every table that additions and removals reach, whatever the flags, the two walks end and
visit every alias once, with its value and in the same order. -/
theorem aliases_walked_once (calls : List AliasCall) (inUse : Nat → Int) :
    ∃! entries,
      WalkedOnce ((AliasCall.runAll Dictionary.empty.toAliases calls).withFlags inUse) entries := by
  obtain ⟨hvalid, _⟩ :=
    runAll_valid_released calls ⟨Dictionary.empty.valid, Dictionary.empty.released⟩
  have hwalked := walkedOnce_contents (exists_marked hvalid inUse).1
  refine ⟨_, hwalked, fun entries h => ?_⟩
  exact h.listed.unique hwalked.listed

end Redshell
