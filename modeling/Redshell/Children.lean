import Mathlib

/-! The children of a process, from their start until they are reaped, and their groups. -/
namespace Redshell

inductive Life where
  | running
  | terminated
  | reaped
  deriving DecidableEq

def Life.rank : Life → Nat
  | running => 0
  | terminated => 1
  | reaped => 2

/-- Who a child is: the one that a program forks under a number, or one from before the program. -/
inductive Child where
  | forked (name : Nat)
  | older (n : Nat)
  deriving DecidableEq

structure Kid where
  child : Child
  pid : ℕ+
  group : ℕ+
  life : Life
  deriving DecidableEq

/-- The children of a process in a group; two that are not reaped have two pids. -/
structure Children where
  group : ℕ+
  kids : List Kid
  distinct : ∀ kid ∈ kids, ∀ kid' ∈ kids, kid.life ≠ .reaped → kid'.life ≠ .reaped →
    kid.pid = kid'.pid → kid = kid'

/-- The same child, no younger. -/
structure Kid.Grows (kid kid' : Kid) : Prop where
  child : kid'.child = kid.child
  pid : kid'.pid = kid.pid
  group : kid'.group = kid.group
  life : kid.life.rank ≤ kid'.life.rank

def Kid.change (p : ℕ+) (old new : Life) (kid : Kid) : Kid :=
  if kid.pid = p ∧ kid.life = old then { kid with life := new } else kid

def Kid.regroup (p group : ℕ+) (kid : Kid) : Kid :=
  if kid.pid = p ∧ kid.life = .running then { kid with group := group } else kid

namespace Children

/-- A child with the pid is this far. -/
def Has (cs : Children) (p : ℕ+) (life : Life) : Prop :=
  ∃ kid ∈ cs.kids, kid.pid = p ∧ kid.life = life

/-- No child keeps the pid. -/
def Free (cs : Children) (p : ℕ+) : Prop := ∀ kid ∈ cs.kids, kid.life ≠ .reaped → kid.pid ≠ p

/-- No child in the group keeps the pid. -/
def Gone (cs : Children) (p : ℕ+) : Prop :=
  ∀ kid ∈ cs.kids, kid.life ≠ .reaped → kid.group = cs.group → kid.pid ≠ p

instance (cs : Children) (p : ℕ+) (life : Life) : Decidable (cs.Has p life) :=
  inferInstanceAs (Decidable (∃ kid ∈ cs.kids, kid.pid = p ∧ kid.life = life))

instance (cs : Children) (p : ℕ+) : Decidable (cs.Free p) :=
  inferInstanceAs (Decidable (∀ kid ∈ cs.kids, kid.life ≠ .reaped → kid.pid ≠ p))

end Children

variable {cs cs' cs'' : Children} {kid kid' kid'' : Kid} {p : ℕ+} {old new life : Life}
  {child : Child}

namespace Kid

theorem Grows.refl (kid : Kid) : kid.Grows kid := ⟨rfl, rfl, rfl, le_rfl⟩

/-- A child that runs has been running. -/
theorem Grows.running (h : kid.Grows kid') (hlife : kid'.life = .running) :
    kid.life = .running := by
  have hrank := h.life
  rw [hlife] at hrank
  cases hkid : kid.life with
  | running => rfl
  | terminated =>
    rw [hkid] at hrank
    exact absurd hrank (by decide)
  | reaped =>
    rw [hkid] at hrank
    exact absurd hrank (by decide)

/-- A child that is reaped stays so. -/
theorem Grows.reaped (h : kid.Grows kid') (hlife : kid.life = .reaped) :
    kid'.life = .reaped := by
  have hrank := h.life
  rw [hlife] at hrank
  cases hkid : kid'.life with
  | reaped => rfl
  | terminated =>
    rw [hkid] at hrank
    exact absurd hrank (by decide)
  | running =>
    rw [hkid] at hrank
    exact absurd hrank (by decide)

theorem change_grows (p : ℕ+) (h : old.rank ≤ new.rank) (kid : Kid) :
    kid.Grows (kid.change p old new) := by
  rw [change]
  split
  · next hold => exact ⟨rfl, rfl, rfl, hold.2 ▸ h⟩
  · exact .refl kid

@[simp] theorem regroup_pid (p group : ℕ+) (kid : Kid) : (kid.regroup p group).pid = kid.pid := by
  rw [regroup]
  split <;> rfl

@[simp] theorem regroup_life (p group : ℕ+) (kid : Kid) :
    (kid.regroup p group).life = kid.life := by
  rw [regroup]
  split <;> rfl

end Kid

namespace Children

/-- The children with this pid get on from one state to the next. -/
def change (cs : Children) (p : ℕ+) (old new : Life) (h : old.rank < new.rank) : Children where
  group := cs.group
  kids := cs.kids.map (Kid.change p old new)
  distinct := by
    intro kid hkid kid' hkid' hlife hlife' hpid
    obtain ⟨before, hbefore, rfl⟩ := List.mem_map.mp hkid
    obtain ⟨before', hbefore', rfl⟩ := List.mem_map.mp hkid'
    have hgrows := Kid.change_grows p h.le before
    have hgrows' := Kid.change_grows p h.le before'
    have hsame : before = before' := by
      apply cs.distinct before hbefore before' hbefore'
      · exact fun hreaped => hlife (hgrows.reaped hreaped)
      · exact fun hreaped => hlife' (hgrows'.reaped hreaped)
      · rw [← hgrows.pid, hpid, hgrows'.pid]
    rw [hsame]

def terminate (cs : Children) (p : ℕ+) : Children := cs.change p .running .terminated (by decide)

def reap (cs : Children) (p : ℕ+) : Children := cs.change p .terminated .reaped (by decide)

/-- A new child, in the group of its parent. -/
def add (cs : Children) (name : Nat) (p : ℕ+) (h : cs.Free p) : Children where
  group := cs.group
  kids := cs.kids ++ [⟨.forked name, p, cs.group, .running⟩]
  distinct := by
    intro kid hkid kid' hkid' hlife hlife' hpid
    rcases List.mem_append.mp hkid with hkid | hkid <;>
      rcases List.mem_append.mp hkid' with hkid' | hkid'
    · exact cs.distinct kid hkid kid' hkid' hlife hlife' hpid
    · obtain rfl := List.mem_singleton.mp hkid'
      exact absurd hpid (h kid hkid hlife)
    · obtain rfl := List.mem_singleton.mp hkid
      exact absurd hpid.symm (h kid' hkid' hlife')
    · rw [List.mem_singleton.mp hkid, List.mem_singleton.mp hkid']

theorem mem_add {name : Nat} {h : cs.Free p} :
    kid ∈ (cs.add name p h).kids ↔
      kid ∈ cs.kids ∨ kid = ⟨.forked name, p, cs.group, .running⟩ := by
  change kid ∈ cs.kids ++ [_] ↔ _
  rw [List.mem_append, List.mem_singleton]

/-- The same children in their groups, none of them younger. -/
structure Evolves (cs cs' : Children) : Prop where
  group : cs'.group = cs.group
  grown : ∀ kid ∈ cs.kids, ∃ kid' ∈ cs'.kids, kid.Grows kid'
  origin : ∀ kid' ∈ cs'.kids, ∃ kid ∈ cs.kids, kid.Grows kid'

namespace Evolves

theorem refl (cs : Children) : cs.Evolves cs :=
  ⟨rfl, fun kid hkid => ⟨kid, hkid, .refl kid⟩, fun kid hkid => ⟨kid, hkid, .refl kid⟩⟩

theorem change (cs : Children) (p : ℕ+) (h : old.rank < new.rank) :
    cs.Evolves (cs.change p old new h) := by
  refine ⟨rfl, ?_, ?_⟩
  · intro kid hkid
    exact ⟨_, List.mem_map_of_mem hkid, Kid.change_grows p h.le kid⟩
  · intro kid' hkid'
    obtain ⟨kid, hkid, rfl⟩ := List.mem_map.mp hkid'
    exact ⟨kid, hkid, Kid.change_grows p h.le kid⟩

theorem terminate (cs : Children) (p : ℕ+) : cs.Evolves (cs.terminate p) := change cs p _

theorem reap (cs : Children) (p : ℕ+) : cs.Evolves (cs.reap p) := change cs p _

theorem gone (h : cs.Evolves cs') (hgone : cs.Gone p) : cs'.Gone p := by
  intro kid' hkid' hlife hgroup hpid
  obtain ⟨kid, hkid, hgrows⟩ := h.origin kid' hkid'
  refine hgone kid hkid (fun hreaped => hlife (hgrows.reaped hreaped)) ?_ ?_
  · rw [← hgrows.group, hgroup, h.group]
  · rw [← hgrows.pid, hpid]

end Evolves

theorem Free.gone (h : cs.Free p) : cs.Gone p := fun kid hkid hlife _ => h kid hkid hlife

/-- Once a child that ended is reaped, no other keeps its pid. -/
theorem free_reap (h : cs.Has p .terminated) : (cs.reap p).Free p := by
  obtain ⟨dead, hdead, rfl, hterminated⟩ := h
  intro kid' hkid' hlife hpid
  obtain ⟨kid, hkid, rfl⟩ := List.mem_map.mp hkid'
  have hgrows : kid.Grows (kid.change dead.pid .terminated .reaped) :=
    Kid.change_grows dead.pid (by decide) kid
  have hsame : kid = dead := by
    apply cs.distinct kid hkid dead hdead
    · exact fun hreaped => hlife (hgrows.reaped hreaped)
    · rw [hterminated]
      decide
    · rw [← hgrows.pid, hpid]
  rw [hsame, Kid.change, if_pos ⟨rfl, hterminated⟩] at hlife
  exact hlife rfl

/-- The running child with this pid moves to another group. -/
def regroup (cs : Children) (p group : ℕ+) : Children where
  group := cs.group
  kids := cs.kids.map (Kid.regroup p group)
  distinct := by
    intro kid hkid kid' hkid' hlife hlife' hpid
    obtain ⟨before, hbefore, rfl⟩ := List.mem_map.mp hkid
    obtain ⟨before', hbefore', rfl⟩ := List.mem_map.mp hkid'
    rw [Kid.regroup_life] at hlife hlife'
    rw [Kid.regroup_pid, Kid.regroup_pid] at hpid
    rw [cs.distinct before hbefore before' hbefore' hlife hlife' hpid]

end Children

end Redshell
