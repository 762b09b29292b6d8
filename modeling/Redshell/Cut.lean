import Mathlib

/-! Cutting a list in two at its first separator. -/
namespace Redshell.Cut

variable {α : Type} {p : α → Bool} {s t : List α} {a : α}

/-- The elements before the first separator, all of them when there is none. -/
def before (p : α → Bool) (s : List α) : List α := s.takeWhile fun a => !p a

/-- The elements from the first separator on, none when there is none. -/
def onward (p : α → Bool) (s : List α) : List α := s.dropWhile fun a => !p a

@[simp] theorem before_append_onward (p : α → Bool) (s : List α) :
    before p s ++ onward p s = s := List.takeWhile_append_dropWhile

@[simp] theorem before_nil : before p [] = [] := rfl

@[simp] theorem onward_nil : onward p [] = [] := rfl

theorem onward_eq_nil_iff : onward p s = [] ↔ ∀ a ∈ s, p a = false := by
  simp [onward, List.dropWhile_eq_nil_iff]

theorem before_separator (h : a ∈ before p s) : p a = false := by
  simpa using List.mem_takeWhile_imp h

theorem onward_head (h : onward p s = a :: t) : p a = true := by
  have ha := List.head?_dropWhile_not (fun a => !p a) s
  rw [show s.dropWhile (fun a => !p a) = a :: t from h] at ha
  simpa using ha

theorem before_of_none (h : ∀ a ∈ s, p a = false) : before p s = s := by
  have hs := before_append_onward p s
  rwa [onward_eq_nil_iff.mpr h, List.append_nil] at hs

theorem before_append_of_none (h : ∀ a ∈ s, p a = false) : before p (s ++ t) = s ++ before p t := by
  rw [before, before, List.takeWhile_append_of_pos]
  simpa using h

theorem before_cons_of_separator (h : p a = true) : before p (a :: t) = [] := by
  simp [before, h]

theorem before_cons_ne_nil (h : p a = false) : before p (a :: t) ≠ [] := by
  simp [before, h]

theorem onward_cons_of_separator (h : p a = true) : onward p (a :: t) = a :: t := by
  simp [onward, h]

/-- The cut stands where it did when elements without a separator come before it. -/
theorem onward_append_of_none (h : ∀ a ∈ s, p a = false) :
    onward p (s ++ t) = onward p t := by
  have hs : s.dropWhile (fun a => !p a) = [] := onward_eq_nil_iff.mpr h
  simp [onward, List.dropWhile_append, hs]

theorem onward_append_of_ne_nil (h : onward p s ≠ []) :
    onward p (s ++ t) = onward p s ++ t := by
  have hs : s.dropWhile (fun a => !p a) ≠ [] := h
  simp [onward, List.dropWhile_append, hs]

theorem onward_onward (p : α → Bool) (s : List α) : onward p (onward p s) = onward p s := by
  unfold onward
  exact List.dropWhile_idempotent _ s

/-- Only what follows the cut is carried through a second cut. -/
theorem onward_append_onward (p : α → Bool) (s t : List α) :
    onward p (s ++ onward p t) = onward p s ++ onward p t := by
  by_cases h : onward p s = []
  · rw [onward_append_of_none (onward_eq_nil_iff.mp h), h, List.nil_append, onward_onward]
  · exact onward_append_of_ne_nil h

/-- The cut as a pointer difference: the first part is as long as what the rest leaves. -/
theorem take_sub_onward (p : α → Bool) (s : List α) :
    s.take (s.length - (onward p s).length) = before p s := by
  have hl := congrArg List.length (before_append_onward p s)
  rw [List.length_append] at hl
  have he : s.length - (onward p s).length = (before p s).length := by omega
  rw [he]
  nth_rewrite 2 [← before_append_onward p s]
  exact List.take_left' rfl

/-- A cut text keeps what it loses at its end only. -/
theorem onward_take (p : α → Bool) (n : Nat) (s : List α) :
    onward p (s.take n) = (onward p s).take (n - (before p s).length) := by
  induction s generalizing n with
  | nil => simp
  | cons a s ih =>
    cases n with
    | zero => simp
    | succ n =>
      cases ha : p a with
      | true => simp [onward, before, ha]
      | false =>
        have hs := ih n
        simp only [onward, before] at hs
        simp [onward, before, ha, hs]

theorem length_onward_take_le (p : α → Bool) (n : Nat) (s : List α) :
    (onward p (s.take n)).length ≤ (onward p s).length := by
  rw [onward_take, List.length_take]
  exact Nat.min_le_right _ _

/-- What stands from the first separator on is whole exactly when nothing is cut, or nothing stands
there. -/
theorem onward_take_eq_iff (p : α → Bool) (n : Nat) (s : List α) :
    onward p (s.take n) = onward p s ↔ s.length ≤ n ∨ onward p s = [] := by
  have hlen := congrArg List.length (before_append_onward p s)
  rw [List.length_append] at hlen
  rw [onward_take, List.take_eq_self_iff, ← List.length_eq_zero_iff]
  omega

end Redshell.Cut
