import Mathlib

/-! Linked chains of keyed entries, and rows of chains with each key in its own slot. -/
namespace Redshell.Chain

structure Entry (K V : Type) where
  key : K
  value : V
deriving DecidableEq

variable {K V : Type} {c d : List (Entry K V)} {e : Entry K V} {k : K} {v : V}

def keys (c : List (Entry K V)) : List K := c.map Entry.key

section Find

variable [DecidableEq K]

/-- The value of the first entry with this key. -/
def find (k : K) : List (Entry K V) → Option V
  | [] => none
  | e :: c => if e.key = k then some e.value else find k c

/-- The first entry with this key given a new key and value in place. -/
def overwrite (k : K) (v : V) : List (Entry K V) → Option (List (Entry K V))
  | [] => none
  | e :: c => if e.key = k then some (⟨k, v⟩ :: c) else (overwrite k v c).map (e :: ·)

/-- The chain without its first entry with this key. -/
def unlink (k : K) : List (Entry K V) → Option (List (Entry K V))
  | [] => none
  | e :: c => if e.key = k then some c else (unlink k c).map (e :: ·)

/-- The entries under the other keys. -/
def others (k : K) (c : List (Entry K V)) : List (Entry K V) := c.filter (·.key ≠ k)

theorem others_of_not_mem (h : k ∉ keys c) : others k c = c := by
  apply List.filter_eq_self.mpr
  intro e he
  have hk : e.key ≠ k := fun hk => h (hk ▸ List.mem_map_of_mem he)
  simpa using hk

theorem find_eq_some_iff (hn : (keys c).Nodup) : find k c = some v ↔ (⟨k, v⟩ : Entry K V) ∈ c := by
  induction c with
  | nil => simp [find]
  | cons e c ih =>
    obtain ⟨ek, ev⟩ := e
    obtain ⟨hne, hnc⟩ := List.nodup_cons.mp hn
    by_cases hk : ek = k
    · subst hk
      have hnot : (⟨ek, v⟩ : Entry K V) ∉ c := fun hm => hne (List.mem_map.mpr ⟨_, hm, rfl⟩)
      simp [find, hnot, eq_comm]
    · simp [find, hk, Ne.symm hk, ih hnc]

theorem find_eq_none_iff : find k c = none ↔ k ∉ keys c := by
  induction c with
  | nil => simp [find, keys]
  | cons e c ih =>
    by_cases hk : e.key = k
    · simp [find, keys, hk]
    · simpa [find, keys, hk, Ne.symm hk] using ih

theorem overwrite_eq_none_iff : overwrite k v c = none ↔ k ∉ keys c := by
  induction c with
  | nil => simp [overwrite, keys]
  | cons e c ih =>
    by_cases hk : e.key = k
    · simp [overwrite, keys, hk]
    · simpa [overwrite, keys, hk, Ne.symm hk] using ih

theorem overwrite_perm (hn : (keys c).Nodup) (h : overwrite k v c = some d) :
    d.Perm (⟨k, v⟩ :: others k c) := by
  induction c generalizing d with
  | nil => simp [overwrite] at h
  | cons e c ih =>
    obtain ⟨hne, hn⟩ := List.nodup_cons.mp hn
    by_cases hk : e.key = k
    · simp only [overwrite, hk, if_true, Option.some.injEq] at h
      subst h
      have ho : others k (e :: c) = c := by
        rw [others, List.filter_cons_of_neg (by simpa using hk)]
        exact others_of_not_mem (hk ▸ hne)
      rw [ho]
    · simp only [overwrite, hk, if_false, Option.map_eq_some_iff] at h
      obtain ⟨d, hd, rfl⟩ := h
      have ho : others k (e :: c) = e :: others k c :=
        List.filter_cons_of_pos (by simpa using hk)
      rw [ho]
      exact ((ih hn hd).cons e).trans (List.Perm.swap _ _ _)

theorem unlink_eq_none_iff : unlink k c = none ↔ k ∉ keys c := by
  induction c with
  | nil => simp [unlink, keys]
  | cons e c ih =>
    by_cases hk : e.key = k
    · simp [unlink, keys, hk]
    · simpa [unlink, keys, hk, Ne.symm hk] using ih

theorem unlink_eq_others (hn : (keys c).Nodup) (h : unlink k c = some d) : d = others k c := by
  induction c generalizing d with
  | nil => simp [unlink] at h
  | cons e c ih =>
    obtain ⟨hne, hn⟩ := List.nodup_cons.mp hn
    by_cases hk : e.key = k
    · simp only [unlink, hk, if_true, Option.some.injEq] at h
      subst h
      rw [others, List.filter_cons_of_neg (by simpa using hk)]
      exact (others_of_not_mem (hk ▸ hne)).symm
    · simp only [unlink, hk, if_false, Option.map_eq_some_iff] at h
      obtain ⟨d, hd, rfl⟩ := h
      rw [others, List.filter_cons_of_pos (by simpa using hk)]
      exact congrArg _ (ih hn hd)

/-- The functions on a chain whose first entry with the key is known. -/
theorem find_split {c d : List (Entry K V)} (hk : k ∉ keys c) (he : e.key = k) :
    find k (c ++ e :: d) = some e.value := by
  induction c with
  | nil => exact if_pos he
  | cons e' c ih =>
    obtain ⟨hne, hk⟩ := not_or.mp fun hm => hk (List.mem_cons.mpr hm)
    exact (if_neg (Ne.symm hne)).trans (ih hk)

theorem overwrite_split {c d : List (Entry K V)} (hk : k ∉ keys c) (he : e.key = k) :
    overwrite k v (c ++ e :: d) = some (c ++ ⟨k, v⟩ :: d) := by
  induction c with
  | nil => exact if_pos he
  | cons e' c ih =>
    obtain ⟨hne, hk⟩ := not_or.mp fun hm => hk (List.mem_cons.mpr hm)
    rw [List.cons_append, overwrite, if_neg (Ne.symm hne), ih hk]
    rfl

theorem unlink_split {c d : List (Entry K V)} (hk : k ∉ keys c) (he : e.key = k) :
    unlink k (c ++ e :: d) = some (c ++ d) := by
  induction c with
  | nil => exact if_pos he
  | cons e' c ih =>
    obtain ⟨hne, hk⟩ := not_or.mp fun hm => hk (List.mem_cons.mpr hm)
    rw [List.cons_append, unlink, if_neg (Ne.symm hne), ih hk]
    rfl

theorem length_others (hn : (keys c).Nodup) (hk : k ∈ keys c) :
    (others k c).length + 1 = c.length := by
  induction c with
  | nil => simp [keys] at hk
  | cons e c ih =>
    obtain ⟨hne, hnc⟩ := List.nodup_cons.mp hn
    by_cases he : e.key = k
    · rw [others, List.filter_cons_of_neg (by simpa using he)]
      have ho := others_of_not_mem (he ▸ hne : k ∉ keys c)
      rw [others] at ho
      rw [ho, List.length_cons]
    · rw [others, List.filter_cons_of_pos (by simpa using he), List.length_cons, List.length_cons]
      have hc : k ∈ keys c := by
        rcases List.mem_cons.mp hk with hk | hk
        · exact absurd hk.symm he
        · exact hk
      rw [← others, ih hnc hc]

theorem mem_others : e ∈ others k c ↔ e ∈ c ∧ e.key ≠ k := by
  simp [others]

theorem nodup_others (hn : (keys c).Nodup) : (keys (others k c)).Nodup :=
  hn.sublist (List.filter_sublist.map _)

theorem not_mem_keys_others : k ∉ keys (others k c) := by
  simp [keys, mem_others]

theorem others_append : others k (c ++ d) = others k c ++ others k d := by
  simp [others]

end Find

/-! Rows of chains: every entry stands in the chain its key's slot names. -/

section Row

variable {slot : K → Nat} {row : List (List (Entry K V))} {i : Nat}

def Placed (slot : K → Nat) (row : List (List (Entry K V))) : Prop :=
  ∀ i, ∀ e ∈ row.getD i [], slot e.key = i

/-- The row without its chain `i`. -/
def around (row : List (List (Entry K V))) (i : Nat) : List (Entry K V) := (row.eraseIdx i).flatten

theorem flatten_perm (h : i < row.length) : row.flatten.Perm (row.getD i [] ++ around row i) := by
  have hrow : row = row.take i ++ row[i] :: row.drop (i + 1) := by simp
  rw [around, List.eraseIdx_eq_take_drop_succ, List.flatten_append, List.getD_eq_getElem _ _ h]
  nth_rewrite 1 [hrow]
  rw [List.flatten_append, List.flatten_cons, ← List.append_assoc, ← List.append_assoc]
  exact List.perm_append_comm.append_right _

theorem flatten_set_perm (h : i < row.length) :
    (row.set i c).flatten.Perm (c ++ around row i) := by
  have hp := flatten_perm (by simpa using h : i < (row.set i c).length)
  rwa [around, List.eraseIdx_set_eq, List.getD_eq_getElem _ _ (by simpa using h),
    List.getElem_set_self] at hp

theorem getD_subset (h : i < row.length) : row.getD i [] ⊆ row.flatten := by
  intro e he
  exact (flatten_perm h).mem_iff.mpr (List.mem_append_left _ he)

theorem placed_mem (hp : Placed slot row) (he : e ∈ row.flatten) :
    e ∈ row.getD (slot e.key) [] := by
  obtain ⟨c, hc, he⟩ := List.mem_flatten.mp he
  obtain ⟨i, hi, rfl⟩ := List.mem_iff_getElem.mp hc
  have hm : e ∈ row.getD i [] := by rwa [List.getD_eq_getElem _ _ hi]
  rwa [hp i e hm]

theorem placed_not_around (hp : Placed slot row) (he : e ∈ around row i) : slot e.key ≠ i := by
  obtain ⟨c, hc, he⟩ := List.mem_flatten.mp he
  obtain ⟨j, hj, hij, rfl⟩ := List.mem_eraseIdx_iff_getElem.mp hc
  have hm : e ∈ row.getD j [] := by rwa [List.getD_eq_getElem _ _ hj]
  rw [hp j e hm]
  exact hij

theorem placed_set (hp : Placed slot row) (hc : ∀ e ∈ c, slot e.key = i) :
    Placed slot (row.set i c) := by
  intro j e he
  by_cases hij : i = j
  · subst hij
    by_cases hi : i < row.length
    · rw [List.getD_eq_getElem _ _ (by simpa using hi), List.getElem_set_self] at he
      exact hc e he
    · rw [List.set_eq_of_length_le (by omega)] at he
      exact hp i e he
  · rw [List.getD_eq_getElem?_getD, List.getElem?_set_ne hij, ← List.getD_eq_getElem?_getD] at he
    exact hp j e he

theorem placed_replicate (slot : K → Nat) (n : Nat) :
    Placed slot (List.replicate n ([] : List (Entry K V))) := by
  intro i e he
  simp [List.getD_eq_getElem?_getD, List.getElem?_replicate] at he
  split at he <;> simp at he

theorem nodup_chain (hn : (keys row.flatten).Nodup) (hi : i < row.length) :
    (keys (row.getD i [])).Nodup := by
  have hall := ((flatten_perm hi).map Entry.key).nodup_iff.mp hn
  rw [List.map_append] at hall
  exact hall.of_append_left

variable [DecidableEq K]

/-- With the keys of the row distinct, a chain holds what the row holds under its slot's keys. -/
theorem find_placed (hp : Placed slot row) (hn : (keys row.flatten).Nodup)
    (hs : slot k < row.length) :
    find k (row.getD (slot k) []) = some v ↔ (⟨k, v⟩ : Entry K V) ∈ row.flatten := by
  rw [find_eq_some_iff (nodup_chain hn hs)]
  constructor
  · intro h
    exact getD_subset hs h
  · intro h
    exact placed_mem hp h

theorem others_flatten_perm (hp : Placed slot row) (hs : slot k < row.length) :
    (others k row.flatten).Perm (others k (row.getD (slot k) []) ++ around row (slot k)) := by
  have hk : k ∉ keys (around row (slot k)) := by
    intro h
    obtain ⟨e, he, rfl⟩ := List.mem_map.mp h
    exact placed_not_around hp he rfl
  rw [← others_of_not_mem hk, ← others_append]
  exact (flatten_perm hs).filter _

/-- A chain that gained one entry in the place of its key's old one, in a row that did the same. -/
theorem set_perm_of_overwritten (hp : Placed slot row) (hs : slot k < row.length)
    (hd : d.Perm (⟨k, v⟩ :: others k (row.getD (slot k) []))) :
    (row.set (slot k) d).flatten.Perm (⟨k, v⟩ :: others k row.flatten) := by
  have hset : (row.set (slot k) d).flatten.Perm (d ++ around row (slot k)) := flatten_set_perm hs
  have hrest := (others_flatten_perm hp hs).symm.cons (⟨k, v⟩ : Entry K V)
  exact (hset.trans (hd.append_right _)).trans hrest

theorem set_perm_of_unlinked (hp : Placed slot row) (hs : slot k < row.length) :
    (row.set (slot k) (others k (row.getD (slot k) []))).flatten.Perm (others k row.flatten) :=
  (flatten_set_perm hs).trans (others_flatten_perm hp hs).symm

end Row

end Redshell.Chain
