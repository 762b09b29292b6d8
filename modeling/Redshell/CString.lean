import Redshell.Cut

/-! C strings, as the bytes before the terminating NUL, and the string.h calls the shell makes. -/
namespace Redshell

abbrev CString := List UInt8

/-- `BUFSIZE` of common.h; the buffers it sizes hold one byte more. -/
def bufSize : Nat := 1024

/-- The bytes of an ASCII literal of the source. -/
def bytes (s : String) : CString := s.toList.map fun c => UInt8.ofNat c.toNat

def isBlank (c : UInt8) : Bool := c == 32

def isEquals (c : UInt8) : Bool := c == 61

/-- `strstr` with a needle of one character `p` tells: the text from it on, or NULL. -/
def strstr (s : CString) (p : UInt8 → Bool) : Option CString :=
  match Cut.onward p s with
  | [] => none
  | ptr => some ptr

/-- What a zeroed destination holds after `strncpy`. -/
def strncpy (src : CString) (n : Nat) : CString := src.take n

/-- The text after `strcat`, in a destination that has room for it. The buffers of `expandAlias` may
have none: `ExpansionFits` says when they do, and `strcatTo`, on their bytes, faults where not. -/
def strcat (dst src : CString) : CString := dst ++ src

variable {p : UInt8 → Bool} {s t : CString}

theorem strstr_getD (s : CString) (p : UInt8 → Bool) : (strstr s p).getD [] = Cut.onward p s := by
  unfold strstr
  split <;> simp_all

theorem strstr_eq_none_iff : strstr s p = none ↔ Cut.onward p s = [] := by
  unfold strstr
  split <;> simp_all

theorem strstr_eq_some_iff : strstr s p = some t ↔ Cut.onward p s = t ∧ t ≠ [] := by
  unfold strstr
  split
  · rename_i h
    rw [h]
    constructor
    · intro he
      cases he
    · rintro ⟨rfl, hne⟩
      exact absurd rfl hne
  · rename_i h
    constructor
    · intro he
      cases he
      exact ⟨rfl, h⟩
    · rintro ⟨rfl, _⟩
      rfl

theorem strncpy_of_le {n : Nat} (h : s.length ≤ n) : strncpy s n = s := List.take_of_length_le h

end Redshell
