import Redshell.Finished

/-! The stages of a foreground pipeline are reaped when the shell returns. -/
namespace Redshell

/-- The processes of the commands before an index have the pids in `launched`, and are in the
shell's process group. -/
structure Launched (k : Nat) (launched : Int → Int) (m : JobMoment) : Prop where
  pids : ∀ i < k, ∃ p : ℕ+, launched i = p ∧ (∃ kid ∈ m.children.kids, kid.child = .forked i) ∧
    ∀ kid ∈ m.children.kids, kid.child = .forked i → kid.pid = p
  group : ∀ kid ∈ m.children.kids, ∀ i, kid.child = .forked i → kid.group = m.children.group
  made : ∀ kid ∈ m.children.kids, ∀ i, kid.child = .forked i → i < k

/-- The process of a command was made, has ended and is reaped. -/
def Moment.Reaped (m : JobMoment) (i : Nat) : Prop :=
  (∃ kid ∈ m.children.kids, kid.child = .forked i) ∧
    ∀ kid ∈ m.children.kids, kid.child = .forked i → kid.life = .reaped

variable {host : Host} {q queue : Queue} {i k : Nat} {cmd : Command} {l : Locals} {pid : Int}
  {m m' : JobMoment} {launched : Int → Int}

/-- When no child keeps a pid in `launched`, its process is reaped. -/
theorem Launched.reaped (h : Launched k launched m)
    (hgone : ∀ i < k, ∀ p : ℕ+, launched i = p → m.children.Gone p) : ∀ i < k, m.Reaped i := by
  intro i hi
  obtain ⟨p, hp, hmade, hpids⟩ := h.pids i hi
  refine ⟨hmade, fun kid hkid hchild => ?_⟩
  by_contra hlife
  exact hgone i hi p hp kid hkid hlife (h.group kid hkid i hchild) (hpids kid hkid hchild)

/-- A stage gets its process, and `launched` its pid. -/
theorem Launched.fork (h : Launched k launched m) (hforks : (host.forks k).isSome = true)
    (hfork : m.fork host.system k = some (pid, m')) :
    pid ≠ 0 ∧ Launched (k + 1) (Function.update launched k pid) m' := by
  rcases Moment.fork_cases hfork with ⟨hnone, _, _⟩ | ⟨p, hfree, _, rfl, hkids⟩
  · rw [show host.forks k = none from hnone] at hforks
    cases hforks
  · refine ⟨by exact_mod_cast p.ne_zero, ⟨fun i hi => ?_, fun kid hkid i hchild => ?_,
      fun kid hkid i hchild => ?_⟩⟩
    · rw [hkids]
      rcases Nat.lt_succ_iff_lt_or_eq.mp hi with hlt | rfl
      · obtain ⟨p', hp', ⟨kid, hkid, hchild⟩, hpids⟩ := h.pids i hlt
        rw [Function.update_of_ne (by omega)]
        refine ⟨p', hp', ⟨kid, Children.mem_add.mpr (.inl hkid), hchild⟩, ?_⟩
        intro kid hkid hchild
        rcases Children.mem_add.mp hkid with hkid | rfl
        · exact hpids kid hkid hchild
        · cases hchild
          omega
      · rw [Function.update_self]
        refine ⟨p, rfl, ⟨_, Children.mem_add.mpr (.inr rfl), rfl⟩, fun kid hkid hchild => ?_⟩
        rcases Children.mem_add.mp hkid with hkid | rfl
        · exact absurd (h.made kid hkid i hchild) (Nat.lt_irrefl i)
        · rfl
    · rw [hkids] at hkid ⊢
      rcases Children.mem_add.mp hkid with hkid | rfl
      · exact h.group kid hkid i hchild
      · rfl
    · rw [hkids] at hkid
      rcases Children.mem_add.mp hkid with hkid | rfl
      · exact Nat.lt_succ_of_lt (h.made kid hkid i hchild)
      · cases hchild
        exact Nat.lt_succ_self k

section

variable {ok : Option (Request Routine) → JobMoment → Act → Prop}

end

end Redshell
