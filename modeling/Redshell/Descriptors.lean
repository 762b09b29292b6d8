import Mathlib

/-! A descriptor table: what each descriptor number of a process refers to. -/
namespace Redshell

/-- The entry of each number; the numbers past the end are closed. -/
abbrev Table (F : Type) := List (Option F)

namespace Table

variable {F : Type} {t : Table F} {f : F} {n m : Nat} {fd old : Int}

def get (t : Table F) (fd : Int) : Option F :=
  if fd < 0 then none else t[fd.toNat]?.join

def put (t : Table F) (n : Nat) (entry : Option F) : Table F :=
  (t ++ List.replicate (n + 1 - t.length) none).set n entry

/-- The lowest closed number. -/
def lowest (t : Table F) : Nat := t.findIdx Option.isNone

/-- The lowest closed number, and the table where it refers to the file. -/
def alloc (t : Table F) (f : F) : Int × Table F := (t.lowest, t.put t.lowest (some f))

/-- `dup`: -1 when the number is closed. -/
def dup (t : Table F) (fd : Int) : Int × Table F :=
  match t.get fd with
  | some f => t.alloc f
  | none => (-1, t)

/-- `dup2`: no effect when the old number is closed. -/
def dup2 (t : Table F) (old : Int) (new : Nat) : Table F :=
  match t.get old with
  | some f => t.put new (some f)
  | none => t

/-- `close`: no effect on a closed number. -/
def close (t : Table F) (fd : Int) : Table F :=
  if (t.get fd).isSome then t.put fd.toNat none else t

theorem get_of_neg (h : fd < 0) : t.get fd = none := if_pos h

theorem get_natCast (t : Table F) (n : Nat) : t.get n = t[n]?.join := by
  simp [get]

theorem nonneg_of_get (h : t.get fd = some f) : 0 ≤ fd := by
  by_contra hneg
  rw [get_of_neg (by omega)] at h
  cases h

theorem get_put (t : Table F) (n : Nat) (entry : Option F) (fd : Int) :
    (t.put n entry).get fd = if fd = n then entry else t.get fd := by
  rcases lt_or_ge fd 0 with hneg | hpos
  · rw [get_of_neg hneg, get_of_neg hneg, if_neg (by omega)]
  · obtain ⟨m, rfl⟩ := Int.eq_ofNat_of_zero_le hpos
    simp only [get_natCast, put, Int.natCast_inj, List.getElem?_set, List.length_append,
      List.length_replicate]
    by_cases hm : n = m
    · rw [if_pos hm, if_pos hm.symm, if_pos (by omega), Option.join_some]
    · rw [if_neg hm, if_neg (Ne.symm hm), List.getElem?_append]
      split
      · rfl
      · next hlen =>
        have hnone : t[m]? = none := List.getElem?_eq_none (by omega)
        rw [hnone, List.getElem?_replicate]
        split <;> rfl

theorem get_lowest (t : Table F) : t.get t.lowest = none := by
  rw [get_natCast, lowest]
  rcases Nat.lt_or_ge (t.findIdx Option.isNone) t.length with h | h
  · rw [List.getElem?_eq_getElem h, Option.join_some]
    exact Option.isNone_iff_eq_none.mp (List.findIdx_getElem (w := h))
  · rw [List.getElem?_eq_none h, Option.join_none]

theorem ne_lowest (h : t.get fd = some f) : fd ≠ t.lowest := by
  rintro rfl
  rw [get_lowest] at h
  cases h

theorem get_alloc (t : Table F) (f : F) (fd : Int) :
    (t.alloc f).2.get fd = if fd = (t.alloc f).1 then some f else t.get fd :=
  get_put t t.lowest (some f) fd

theorem ne_alloc (h : t.get fd = some f) {g : F} : fd ≠ (t.alloc g).1 := ne_lowest h

/-- An allocation leaves the open numbers as they are. -/
theorem get_alloc_of_open (h : t.get fd = some f) {g : F} : (t.alloc g).2.get fd = some f := by
  rw [get_alloc, if_neg (ne_alloc h), h]

theorem get_dup2 (h : t.get old = some f) (new : Nat) (fd : Int) :
    (t.dup2 old new).get fd = if fd = new then some f else t.get fd := by
  rw [dup2, h]
  exact get_put t new (some f) fd

theorem get_dup2_of_ne (h : fd ≠ n) (old : Int) : (t.dup2 old n).get fd = t.get fd := by
  rw [dup2]
  split
  · rw [get_put, if_neg h]
  · rfl

theorem get_close (t : Table F) (old fd : Int) :
    (t.close old).get fd = if fd = old then none else t.get fd := by
  rw [close]
  split
  · next h =>
    obtain ⟨f, hf⟩ := Option.isSome_iff_exists.mp h
    have hpos := nonneg_of_get hf
    rw [get_put, Int.toNat_of_nonneg hpos]
  · next h =>
    split
    · next he => rw [he, Option.not_isSome_iff_eq_none.mp h]
    · rfl

theorem get_close_of_ne (h : fd ≠ old) : (t.close old).get fd = t.get fd := by
  rw [get_close, if_neg h]

/-- The number refers to the file, and is not one of the standard streams 0 and 1. -/
structure Away (t : Table F) (fd : Int) (f : F) : Prop where
  refers : t.get fd = some f
  ne_zero : fd ≠ 0
  ne_one : fd ≠ 1

namespace Away

theorem ne_stream (h : t.Away fd f) (hn : n = 0 ∨ n = 1) : fd ≠ n := by
  rcases hn with rfl | rfl
  · exact h.ne_zero
  · exact h.ne_one

theorem alloc (h : t.Away fd f) (g : F) : (t.alloc g).2.Away fd f :=
  ⟨get_alloc_of_open h.refers, h.ne_zero, h.ne_one⟩

theorem dup2 (h : t.Away fd f) (old : Int) (hn : n = 0 ∨ n = 1) : (t.dup2 old n).Away fd f :=
  ⟨(get_dup2_of_ne (h.ne_stream hn) old).trans h.refers, h.ne_zero, h.ne_one⟩

/-- Closing a number that refers to something else. -/
theorem close (h : t.Away fd f) (hne : t.get old ≠ some f) : (t.close old).Away fd f := by
  have hfd : fd ≠ old := by
    rintro rfl
    exact hne h.refers
  exact ⟨(get_close_of_ne hfd).trans h.refers, h.ne_zero, h.ne_one⟩

/-- While both streams are open, a new number is none of them. -/
theorem of_alloc {g₀ g₁ : F} (h₀ : t.get 0 = some g₀) (h₁ : t.get 1 = some g₁) (f : F) :
    (t.alloc f).2.Away (t.alloc f).1 f :=
  ⟨(get_alloc t f _).trans (if_pos rfl), (ne_alloc h₀).symm, (ne_alloc h₁).symm⟩

end Away

end Table

end Redshell
