import Mathlib

/-! A memory in which just the cells of a list are allocated. -/
namespace Redshell

variable {A γ : Type} {heap heap' : A → Option γ} {null p : A} {x y : γ}
  {cells cells' : List (A × γ)}

/-- Each cell of the list is in the memory, at an address of its own, and no other one is. -/
structure Cells (null : A) (heap : A → Option γ) (cells : List (A × γ)) : Prop where
  allocated : ∀ cell ∈ cells, heap cell.1 = some cell.2
  ne_null : null ∉ cells.map Prod.fst
  nodup : (cells.map Prod.fst).Nodup
  exact : ∀ p, heap p ≠ none → p ∈ cells.map Prod.fst

namespace Cells

theorem nil (null : A) : Cells null (fun _ => none : A → Option γ) [] where
  allocated _ hcell := absurd hcell List.not_mem_nil
  ne_null := List.not_mem_nil
  nodup := List.nodup_nil
  exact _ hp := absurd rfl hp

theorem perm (h : Cells null heap cells) (hp : cells.Perm cells') : Cells null heap cells' where
  allocated cell hcell := h.allocated cell (hp.mem_iff.mpr hcell)
  ne_null hmem := h.ne_null ((hp.map _).mem_iff.mpr hmem)
  nodup := (hp.map _).nodup_iff.mp h.nodup
  exact p hne := (hp.map _).mem_iff.mp (h.exact p hne)

theorem get (h : Cells null heap cells) (hc : (p, x) ∈ cells) : p ≠ null ∧ heap p = some x :=
  ⟨fun he => h.ne_null (he ▸ List.mem_map_of_mem (f := Prod.fst) hc), h.allocated _ hc⟩

theorem not_mem (h : Cells null heap cells) (hp : heap p = none) : p ∉ cells.map Prod.fst := by
  intro hmem
  obtain ⟨cell, hcell, rfl⟩ := List.mem_map.mp hmem
  cases hp.symm.trans (h.allocated cell hcell)

/-- As many addresses are allocated as there are cells. -/
theorem ncard (h : Cells null heap cells) : {p | heap p ≠ none}.ncard = cells.length := by
  classical
  have hset : {p | heap p ≠ none} = ((cells.map Prod.fst).toFinset : Set A) := by
    ext p
    rw [Finset.mem_coe, List.mem_toFinset]
    constructor
    · exact h.exact p
    · intro hmem hnone
      exact h.not_mem hnone hmem
  rw [hset, Set.ncard_coe_finset, List.toFinset_card_of_nodup h.nodup, List.length_map]

theorem eq_none (h : Cells null heap []) : heap = fun _ => none := by
  funext p
  by_contra hne
  exact absurd (h.exact p hne) List.not_mem_nil

variable [DecidableEq A]

theorem insert (h : Cells null heap cells) (hp : p ≠ null) (hfree : heap p = none) :
    Cells null (Function.update heap p (some x)) ((p, x) :: cells) where
  allocated cell hcell := by
    rcases List.mem_cons.mp hcell with rfl | hcell
    · exact Function.update_self ..
    · have hne : cell.1 ≠ p := fun he =>
        h.not_mem hfree (he ▸ List.mem_map_of_mem (f := Prod.fst) hcell)
      rw [Function.update_of_ne hne]
      exact h.allocated cell hcell
  ne_null hmem := (List.mem_cons.mp hmem).elim (fun he => hp he.symm) h.ne_null
  nodup := List.nodup_cons.mpr ⟨h.not_mem hfree, h.nodup⟩
  exact q hq := by
    by_cases hqp : q = p
    · exact hqp ▸ List.mem_cons_self
    · rw [Function.update_of_ne hqp] at hq
      exact List.mem_cons_of_mem _ (h.exact q hq)

theorem remove (h : Cells null heap ((p, x) :: cells)) :
    Cells null (Function.update heap p none) cells where
  allocated cell hcell := by
    have hmem : cell.1 ∈ cells.map Prod.fst := List.mem_map_of_mem hcell
    have hne : cell.1 ≠ p := fun he => (List.nodup_cons.mp h.nodup).1 (he ▸ hmem)
    rw [Function.update_of_ne hne]
    exact h.allocated cell (List.mem_cons_of_mem _ hcell)
  ne_null hmem := h.ne_null (List.mem_cons_of_mem _ hmem)
  nodup := (List.nodup_cons.mp h.nodup).2
  exact q hq := by
    have hqp : q ≠ p := by
      rintro rfl
      exact hq (Function.update_self ..)
    rw [Function.update_of_ne hqp] at hq
    exact List.mem_of_ne_of_mem hqp (h.exact q hq)

theorem write (h : Cells null heap ((p, x) :: cells)) :
    Cells null (Function.update heap p (some y)) ((p, y) :: cells) := by
  have hfree : Function.update heap p none p = none := Function.update_self ..
  have hinsert := h.remove.insert (x := y) (h.get List.mem_cons_self).1 hfree
  rwa [Function.update_idem] at hinsert

end Cells

end Redshell
