import Mathlib

/-! Singly linked lists in a heap, from a first node to the null address. -/
namespace Redshell

/-- How nodes are laid out: the null address, and what a node links to and carries. -/
structure Layout (A N P : Type) where
  null : A
  next : N → A
  payload : N → P

namespace Layout

variable {A N P : Type} {y : Layout A N P} {heap heap' : A → Option N} {p a b : A} {v w : P}
  {node node' : N} {cells front back back' : List (A × P)}

/-- From an address on, the nodes at these addresses carry these payloads. -/
def Linked (y : Layout A N P) (heap : A → Option N) : A → List (A × P) → Prop
  | p, [] => p = y.null
  | p, (a, v) :: cells => p = a ∧ a ≠ y.null ∧
      ∃ node, heap a = some node ∧ y.payload node = v ∧ y.Linked heap (y.next node) cells

namespace Linked

theorem ne_null (h : y.Linked heap p cells) (ha : a ∈ cells.map Prod.fst) : a ≠ y.null := by
  induction cells generalizing p with
  | nil => cases ha
  | cons cell cells ih =>
    obtain ⟨a', v⟩ := cell
    obtain ⟨_, hne, node, _, _, hlinked⟩ := h
    rcases List.mem_cons.mp ha with rfl | ha
    · exact hne
    · exact ih hlinked ha

theorem allocated (h : y.Linked heap p cells) (ha : a ∈ cells.map Prod.fst) : heap a ≠ none := by
  induction cells generalizing p with
  | nil => cases ha
  | cons cell cells ih =>
    obtain ⟨a', v⟩ := cell
    obtain ⟨_, _, node, hnode, _, hlinked⟩ := h
    rcases List.mem_cons.mp ha with rfl | ha
    · rw [hnode]
      exact Option.some_ne_none node
    · exact ih hlinked ha

/-- Only the addresses of the nodes matter. -/
theorem congr (h : y.Linked heap p cells)
    (hsame : ∀ a ∈ cells.map Prod.fst, heap' a = heap a) : y.Linked heap' p cells := by
  induction cells generalizing p with
  | nil => exact h
  | cons cell cells ih =>
    obtain ⟨a, v⟩ := cell
    obtain ⟨hp, hne, node, hnode, hpayload, hlinked⟩ := h
    refine ⟨hp, hne, node, ?_, hpayload, ?_⟩
    · exact (hsame a List.mem_cons_self).trans hnode
    · exact ih hlinked fun b hb => hsame b (List.mem_cons_of_mem _ hb)

/-- There is no node from null on. -/
theorem eq_nil (h : y.Linked heap y.null cells) : cells = [] := by
  cases cells with
  | nil => rfl
  | cons cell cells => exact absurd h.1.symm h.2.1

/-- The last node links to null. -/
theorem last (h : y.Linked heap p (cells ++ [(a, v)])) :
    ∃ node, heap a = some node ∧ y.payload node = v ∧ y.next node = y.null := by
  induction cells generalizing p with
  | nil =>
    obtain ⟨_, _, node, hnode, hpayload, hnext⟩ := h
    exact ⟨node, hnode, hpayload, hnext⟩
  | cons cell cells ih =>
    obtain ⟨a', v'⟩ := cell
    obtain ⟨_, _, node, _, _, hlinked⟩ := h
    exact ih hlinked

/-- A node in the middle, and the list from the node after it on. -/
theorem get (h : y.Linked heap p (front ++ (a, v) :: back)) :
    a ≠ y.null ∧ ∃ node, heap a = some node ∧ y.payload node = v ∧
      y.Linked heap (y.next node) back := by
  induction front generalizing p with
  | nil => exact h.2
  | cons cell front ih =>
    obtain ⟨a', v'⟩ := cell
    obtain ⟨_, _, node, _, _, hlinked⟩ := h
    exact ih hlinked

/-- A node in the middle is written, and another list follows it. -/
theorem write (h : y.Linked heap p (front ++ (a, v) :: back))
    (hsame : ∀ b ∈ front.map Prod.fst, heap' b = heap b) (hnode : heap' a = some node)
    (hpayload : y.payload node = w) (hlinked : y.Linked heap' (y.next node) back') :
    y.Linked heap' p (front ++ (a, w) :: back') := by
  induction front generalizing p with
  | nil => exact ⟨h.1, h.2.1, node, hnode, hpayload, hlinked⟩
  | cons cell front ih =>
    obtain ⟨a', v'⟩ := cell
    obtain ⟨hp, hne, node₁, hnode₁, hpayload₁, hlinked₁⟩ := h
    refine ⟨hp, hne, node₁, ?_, hpayload₁, ?_⟩
    · exact (hsame a' List.mem_cons_self).trans hnode₁
    · exact ih hlinked₁ fun b hb => hsame b (List.mem_cons_of_mem _ hb)

/-- The last node is made to link to a new one. -/
theorem snoc [DecidableEq A] (h : y.Linked heap p (cells ++ [(a, v)])) (node node' : N)
    (hnodup : (cells.map Prod.fst ++ [a]).Nodup) (hpayload : y.payload node = v)
    (hnext : y.next node = b) (hb : b ≠ y.null)
    (hfresh : b ∉ cells.map Prod.fst ++ [a]) (hpayload' : y.payload node' = w)
    (hnext' : y.next node' = y.null) :
    y.Linked (Function.update (Function.update heap b (some node')) a (some node)) p
      (cells ++ [(a, v)] ++ [(b, w)]) := by
  induction cells generalizing p with
  | nil =>
    obtain ⟨hp, hne, _⟩ := h
    have hba : b ≠ a := fun he => hfresh (he ▸ List.mem_singleton_self b)
    refine ⟨hp, hne, node, Function.update_self _ _ _, hpayload, ?_⟩
    refine ⟨hnext, hb, node', ?_, hpayload', hnext'⟩
    rw [Function.update_of_ne hba, Function.update_self]
  | cons cell cells ih =>
    obtain ⟨a', v'⟩ := cell
    obtain ⟨hp, hne, node₁, hnode₁, hpayload₁, hlinked⟩ := h
    obtain ⟨hnot, hnodup⟩ := List.nodup_cons.mp hnodup
    obtain ⟨hbne, hfresh⟩ := not_or.mp fun hmem => hfresh (List.mem_cons.mpr hmem)
    have haa : a' ≠ a := fun he => hnot (he ▸ List.mem_append_right _ (List.mem_singleton_self a'))
    refine ⟨hp, hne, node₁, ?_, hpayload₁, ih hlinked hnodup hfresh⟩
    rw [Function.update_of_ne haa, Function.update_of_ne (Ne.symm hbne), hnode₁]

end Linked

end Layout

end Redshell
