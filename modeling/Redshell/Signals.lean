import Redshell.Interleaving

/-! A process that executes one program after another and reaps its children on SIGCHLD. -/
namespace Redshell

/-- The handler of SIGCHLD is not running, or before or after its `waitpid`; it may have broken
into a `waitpid` of the program. -/
inductive Handler where
  | idle
  | entered (breaks : Bool)
  | waited (breaks : Bool)
  deriving DecidableEq

/-- A process; between two programs it executes none. At most one SIGCHLD is pending. -/
structure Parent (ν κ σ α : Type) where
  executing : Option (System ν κ σ × Control ν κ α)
  moment : Moment ν κ σ
  pending : Bool
  handler : Handler

/-- A step of the process, of a child or of the system; `ι` names the programs. -/
inductive Move (ι : Type) where
  | start (i : ι)
  | call
  | wait (found : Option ℕ+)
  | finish
  | regroup (p group : ℕ+)
  | terminate (p : ℕ+)
  | deliver (breaks : Bool)
  | reap (found : Option ℕ+)
  | resume

namespace Children

/-- The pids of the children that ended and are not reaped. -/
def dead (cs : Children) : Finset ℕ+ :=
  ((cs.kids.filter fun kid => kid.life = .terminated).map (·.pid)).toFinset

/-- The pids of the children that are not reaped and not in the group of their parent. -/
def far (cs : Children) : Finset ℕ+ :=
  ((cs.kids.filter fun kid => kid.life ≠ .reaped ∧ kid.group ≠ cs.group).map (·.pid)).toFinset

end Children

/-- The program gives no value before a wait for the pid. -/
def Prog.Awaits {ν κ σ α : Type} (sys : System ν κ σ) (p : ℕ+) : Prog ν κ α → Prop
  | ret _ => False
  | crash => True
  | exit _ => True
  | dup _ next => ∀ r, (next r).Awaits sys p
  | dup2 _ _ next => next.Awaits sys p
  | close _ next => next.Awaits sys p
  | openFile name next => ∀ r, (r = -1 ↔ sys.opens name = false) → (next r).Awaits sys p
  | pipe _ _ next => ∀ r w, (next r w).Awaits sys p
  | fork child next => (next ((sys.forks child).elim (-1) fun pid => pid)).Awaits sys p
  | waitpid pid next => pid = p ∨ next.Awaits sys p
  | reap pid next => pid = p ∨ next.Awaits sys p
  | call _ next => ∀ status, (next status).Awaits sys p

namespace Control

variable {ν κ σ α : Type}

/-- A wait that was interrupted is repeated, unless `errno` says ECHILD when it is tested: the
handler may set it while a child outside its group runs. -/
def Awaits (sys : System ν κ σ) (m : Moment ν κ σ) (p : ℕ+) : Control ν κ α → Prop
  | running prog => prog.Awaits sys p
  | testing pid next =>
    (pid = p ∧ p ∉ m.children.far ∧ m.errno ≠ .echild) ∨ next.Awaits sys p
  | stopped => True

/-- The pid of a `waitpid` that may block. -/
def waitsFor : Control ν κ α → Option Int
  | running (.waitpid pid _) => some pid
  | running (.reap pid _) => some pid
  | _ => none

end Control

namespace Handler

/-- How many children it is about to reap. -/
def due : Handler → Nat
  | entered _ => 1
  | _ => 0

def breaks : Handler → Bool
  | idle => false
  | entered breaks => breaks
  | waited breaks => breaks

end Handler

namespace Parent

variable {ν κ σ α ι : Type}

def dead (s : Parent ν κ σ α) : Finset ℕ+ := s.moment.children.dead

def far (s : Parent ν κ σ α) : Finset ℕ+ := s.moment.children.far

/-- The program is in a `waitpid` that blocks. -/
def blocked (s : Parent ν κ σ α) : Bool :=
  (s.executing.bind fun e => e.2.waitsFor).any fun pid => decide (s.moment.Blocks pid)

/-- A step of the program. -/
def advance (s : Parent ν κ σ α)
    (step : System ν κ σ → Config ν κ σ α → Option (Config ν κ σ α)) : Option (Parent ν κ σ α) :=
  match s.executing, s.handler with
  | some (sys, control), .idle => (step sys ⟨control, s.moment⟩).map fun c =>
      { s with executing := some (sys, c.control), moment := c.moment }
  | _, _ => none

/-- The `waitpid` that the handler broke into fails with EINTR. -/
def breakWait (s : Parent ν κ σ α) : Parent ν κ σ α :=
  match s.executing with
  | some (sys, .running (.waitpid pid next)) => { s with
      executing := some (sys, .running next)
      moment := { s.moment.log (.waitpid pid) with errno := .eintr } }
  | some (sys, .running (.reap pid next)) => { s with
      executing := some (sys, .testing pid next)
      moment := { s.moment with errno := .eintr } }
  | _ => s

/-- The process as it is when the handler has returned, with what happened until now. -/
def resumed (s : Parent ν κ σ α) : Parent ν κ σ α := if s.handler.breaks then s.breakWait else s

/-- A child's end leaves one SIGCHLD pending. While the handler runs every signal is blocked; its
`waitpid` reaps a child that ended if there is one in the group. A child can leave the group. -/
def step (program : ι → σ → System ν κ σ × Prog ν κ α) (s : Parent ν κ σ α) :
    Move ι → Option (Parent ν κ σ α)
  | .start i =>
    match s.executing, s.handler with
    | none, .idle =>
      let made := program i s.moment.world.memory
      some { s with executing := some (made.1, .running made.2) }
    | _, _ => none
  | .call => s.advance fun sys c => c.call sys
  | .wait found => s.advance fun _ c => c.wait (found.elim .childless .found)
  | .finish =>
    match s.executing, s.handler with
    | some (_, .running (.ret _)), .idle => some { s with executing := none }
    | _, _ => none
  | .regroup p group =>
    if s.moment.children.Has p .running then
      some { s with moment := { s.moment with children := s.moment.children.regroup p group } }
    else none
  | .terminate p =>
    (s.moment.disturb (.terminate p)).map fun m => { s with moment := m, pending := true }
  | .deliver breaks =>
    if s.handler = .idle ∧ s.pending = true ∧ (breaks = true → s.blocked = true) then
      some { s with pending := false, handler := .entered breaks }
    else none
  | .reap found =>
    match s.handler with
    | .entered breaks =>
      if found = none → s.dead ⊆ s.far then
        (s.moment.handle found).map fun m => { s with moment := m, handler := .waited breaks }
      else none
    | _ => none
  | .resume =>
    match s.handler with
    | .waited _ => some { s.resumed with handler := .idle }
    | _ => none

/-- A schedule. -/
def play (program : ι → σ → System ν κ σ × Prog ν κ α) :
    List (Move ι) → Parent ν κ σ α → Option (Parent ν κ σ α)
  | [], s => some s
  | move :: moves, s => (s.step program move).bind (play program moves)

def Reaches (program : ι → σ → System ν κ σ × Prog ν κ α)
    (ok : Parent ν κ σ α → Move ι → Prop) : Parent ν κ σ α → Parent ν κ σ α → Prop :=
  Relation.ReflTransGen fun s s' => ∃ move, ok s move ∧ s.step program move = some s'

/-- The program in progress waits for the child, even if it returns from the handler first. -/
def Awaits (s : Parent ν κ σ α) (p : ℕ+) : Prop :=
  match s.resumed.executing with
  | none => False
  | some (sys, control) => control.Awaits sys s.resumed.moment p

/-- When a child ends, the program waits for it and for all that ended before, or all of them are in
the group and the handler is about to reap those that ended before. -/
def Noticed (s : Parent ν κ σ α) (move : Move ι) : Prop :=
  ∀ p, move = .terminate p → (∀ p' ∈ insert p s.dead, s.Awaits p') ∨
    s.dead.card ≤ s.handler.due ∧ Disjoint (insert p s.dead) s.far

/-- Those that ended are waited for, or they are in the group and no more than there are signals
for them. -/
def Covered (s : Parent ν κ σ α) : Prop :=
  (∀ p ∈ s.dead, s.Awaits p) ∨
    s.dead.card ≤ s.pending.toNat + s.handler.due ∧ Disjoint s.dead s.far

end Parent

variable {ν κ σ α β ι : Type} {sys : System ν κ σ} {cs : Children} {m m' : Moment ν κ σ}
  {p p' : ℕ+} {pid : Int} {control : Control ν κ α} {c c' : Config ν κ σ α}
  {program : ι → σ → System ν κ σ × Prog ν κ α} {s s' : Parent ν κ σ α} {move : Move ι}
  {found : Option ℕ+} {ok : Parent ν κ σ α → Move ι → Prop} {prog : Prog ν κ α}

namespace Prog

variable {k : α → Prog ν κ β}

theorem Awaits.bind (h : prog.Awaits sys p) (k : α → Prog ν κ β) : (prog >>= k).Awaits sys p := by
  change (prog.bind k).Awaits sys p
  induction prog with
  | ret a => exact absurd h id
  | crash => trivial
  | exit status => trivial
  | dup fd next ih => exact fun r => ih r (h r)
  | dup2 old new next ih => exact ih h
  | close fd next ih => exact ih h
  | openFile name next ih => exact fun r hr => ih r (h r hr)
  | pipe start pair next ih => exact fun r w => ih r w (h r w)
  | fork child next ih => exact ih _ h
  | waitpid pid next ih => exact h.imp_right ih
  | reap pid next ih => exact h.imp_right ih
  | call routine next ih => exact fun status => ih status (h status)

theorem awaits_bind (hk : ∀ a, (k a).Awaits sys p) : (prog >>= k).Awaits sys p := by
  change (prog.bind k).Awaits sys p
  induction prog with
  | ret a => exact hk a
  | crash => trivial
  | exit status => trivial
  | dup fd next ih => exact fun r => ih r
  | dup2 old new next ih => exact ih
  | close fd next ih => exact ih
  | openFile name next ih => exact fun r _ => ih r
  | pipe start pair next ih => exact fun r w => ih r w
  | fork child next ih => exact ih _
  | waitpid pid next ih => exact .inr ih
  | reap pid next ih => exact .inr ih
  | call routine next ih => exact fun status => ih status

end Prog

/-! The children that ended. -/

namespace Children

theorem mem_dead : p ∈ cs.dead ↔ cs.Has p .terminated := by
  simp only [dead, Has, List.mem_toFinset, List.mem_map, List.mem_filter, decide_eq_true_eq]
  constructor
  · rintro ⟨kid, ⟨hkid, hlife⟩, hpid⟩
    exact ⟨kid, hkid, hpid, hlife⟩
  · rintro ⟨kid, hkid, hpid, hlife⟩
    exact ⟨kid, ⟨hkid, hlife⟩, hpid⟩

theorem dead_eq_empty : cs.dead = ∅ ↔ ∀ kid ∈ cs.kids, kid.life ≠ .terminated := by
  constructor
  · intro h kid hkid hlife
    have hmem : kid.pid ∈ cs.dead := mem_dead.mpr ⟨kid, hkid, rfl, hlife⟩
    rw [h] at hmem
    exact absurd hmem (Finset.notMem_empty _)
  · intro h
    refine Finset.eq_empty_of_forall_notMem fun p hp => ?_
    obtain ⟨kid, hkid, _, hlife⟩ := mem_dead.mp hp
    exact h kid hkid hlife

theorem dead_terminate : (cs.terminate p).dead ⊆ insert p cs.dead := by
  intro p' hp'
  obtain ⟨kid', hkid', hpid, hlife⟩ := mem_dead.mp hp'
  obtain ⟨kid, hkid, rfl⟩ := List.mem_map.mp hkid'
  rw [Kid.change] at hpid hlife
  split at hpid
  · next hchanged =>
    obtain rfl : kid.pid = p' := hpid
    exact Finset.mem_insert.mpr (.inl hchanged.1)
  · next hchanged =>
    rw [if_neg hchanged] at hlife
    exact Finset.mem_insert_of_mem (mem_dead.mpr ⟨kid, hkid, hpid, hlife⟩)

/-- A child that is reaped is no longer among them. -/
theorem dead_reap : (cs.reap p).dead ⊆ cs.dead.erase p := by
  intro p' hp'
  obtain ⟨kid', hkid', hpid, hlife⟩ := mem_dead.mp hp'
  obtain ⟨kid, hkid, rfl⟩ := List.mem_map.mp hkid'
  rw [Kid.change] at hpid hlife
  split at hlife
  · cases hlife
  · next hchanged =>
    rw [if_neg hchanged] at hpid
    refine Finset.mem_erase.mpr ⟨?_, mem_dead.mpr ⟨kid, hkid, hpid, hlife⟩⟩
    rintro rfl
    exact hchanged ⟨hpid, hlife⟩

theorem erase_dead_subset : cs.dead.erase p ⊆ (cs.reap p).dead := by
  intro p' hp'
  obtain ⟨hne, hdead⟩ := Finset.mem_erase.mp hp'
  obtain ⟨kid, hkid, rfl, hlife⟩ := mem_dead.mp hdead
  refine mem_dead.mpr ⟨_, List.mem_map_of_mem hkid, ?_⟩
  rw [Kid.change, if_neg fun h => hne h.1]
  exact ⟨rfl, hlife⟩

theorem insert_dead_subset (h : cs.Has p .running) : insert p cs.dead ⊆ (cs.terminate p).dead := by
  intro p' hp'
  rcases Finset.mem_insert.mp hp' with rfl | hdead
  · obtain ⟨kid, hkid, rfl, hlife⟩ := h
    refine mem_dead.mpr ⟨_, List.mem_map_of_mem hkid, ?_⟩
    rw [Kid.change, if_pos ⟨rfl, hlife⟩]
    exact ⟨rfl, rfl⟩
  · obtain ⟨kid, hkid, rfl, hlife⟩ := mem_dead.mp hdead
    refine mem_dead.mpr ⟨_, List.mem_map_of_mem hkid, ?_⟩
    rw [Kid.change, if_neg fun h => by rw [hlife] at h; cases h.2]
    exact ⟨rfl, hlife⟩

/-- A child that runs is not among them. -/
theorem not_dead_of_running (h : cs.Has p .running) : p ∉ cs.dead := by
  intro hdead
  obtain ⟨kid, hkid, rfl, hlife⟩ := h
  obtain ⟨kid', hkid', hpid, hlife'⟩ := mem_dead.mp hdead
  have hsame :=
    cs.distinct kid' hkid' kid hkid (by rw [hlife']; decide) (by rw [hlife]; decide) hpid
  rw [← hsame, hlife'] at hlife
  cases hlife

theorem dead_add {name : Nat} {h : cs.Free p} : (cs.add name p h).dead = cs.dead := by
  ext p'
  rw [mem_dead, mem_dead]
  constructor
  · rintro ⟨kid, hkid, hpid, hlife⟩
    rcases mem_add.mp hkid with hkid | rfl
    · exact ⟨kid, hkid, hpid, hlife⟩
    · cases hlife
  · rintro ⟨kid, hkid, hpid, hlife⟩
    exact ⟨kid, mem_add.mpr (.inl hkid), hpid, hlife⟩

theorem dead_regroup (cs : Children) (p group : ℕ+) : (cs.regroup p group).dead = cs.dead := by
  ext p'
  rw [mem_dead, mem_dead]
  constructor
  · rintro ⟨kid', hkid', hpid, hlife⟩
    obtain ⟨kid, hkid, rfl⟩ := List.mem_map.mp hkid'
    rw [Kid.regroup_pid] at hpid
    rw [Kid.regroup_life] at hlife
    exact ⟨kid, hkid, hpid, hlife⟩
  · rintro ⟨kid, hkid, hpid, hlife⟩
    refine ⟨_, List.mem_map_of_mem hkid, ?_, ?_⟩
    · rw [Kid.regroup_pid, hpid]
    · rw [Kid.regroup_life, hlife]

/-! The children outside the group. -/

theorem mem_far : p ∈ cs.far ↔
    ∃ kid ∈ cs.kids, kid.pid = p ∧ kid.life ≠ .reaped ∧ kid.group ≠ cs.group := by
  simp only [far, List.mem_toFinset, List.mem_map, List.mem_filter, decide_eq_true_eq]
  constructor
  · rintro ⟨kid, ⟨hkid, hrest⟩, hpid⟩
    exact ⟨kid, hkid, hpid, hrest⟩
  · rintro ⟨kid, hkid, hpid, hrest⟩
    exact ⟨kid, ⟨hkid, hrest⟩, hpid⟩

theorem Evolves.far_subset (h : cs.Evolves cs') : cs'.far ⊆ cs.far := by
  intro p hp
  obtain ⟨kid', hkid', rfl, hlife, hgroup⟩ := mem_far.mp hp
  obtain ⟨kid, hkid, hgrows⟩ := h.origin kid' hkid'
  refine mem_far.mpr ⟨kid, hkid, hgrows.pid.symm, fun hreaped => hlife (hgrows.reaped hreaped), ?_⟩
  rwa [hgrows.group, h.group] at hgroup

/-- A child that ends stays where it is. -/
theorem far_terminate : cs.far ⊆ (cs.terminate p).far := by
  intro p' hp'
  obtain ⟨kid, hkid, hpid, hlife, hgroup⟩ := mem_far.mp hp'
  obtain ⟨kid', hkid', hgrows⟩ := (Evolves.terminate cs p).grown kid hkid
  refine mem_far.mpr ⟨_, List.mem_map_of_mem hkid, ?_, ?_, ?_⟩
  · rw [Kid.change]
    split <;> exact hpid
  · rw [Kid.change]
    split
    · exact Life.noConfusion
    · exact hlife
  · rw [Kid.change]
    split <;> exact hgroup

theorem far_add {name : Nat} {h : cs.Free p} : (cs.add name p h).far ⊆ cs.far := by
  intro p' hp'
  obtain ⟨kid, hkid, hpid, hlife, hgroup⟩ := mem_far.mp hp'
  rcases mem_add.mp hkid with hkid | rfl
  · exact mem_far.mpr ⟨kid, hkid, hpid, hlife, hgroup⟩
  · exact absurd rfl hgroup

/-- Only the child that moves may leave. -/
theorem far_regroup {group : ℕ+} (hp' : p' ∈ (cs.regroup p group).far) : p' = p ∨ p' ∈ cs.far := by
  obtain ⟨kid', hkid', hpid, hlife, hgroup⟩ := mem_far.mp hp'
  obtain ⟨kid, hkid, rfl⟩ := List.mem_map.mp hkid'
  rw [Kid.regroup_pid] at hpid
  rw [Kid.regroup_life] at hlife
  by_cases hmoves : kid.pid = p
  · exact .inl (hpid.symm.trans hmoves)
  · rw [Kid.regroup, if_neg fun h => hmoves h.1] at hgroup
    exact .inr (mem_far.mpr ⟨kid, hkid, hpid, hlife, hgroup⟩)

/-- One in the group is. -/
theorem offers_of_near (hdead : p ∈ cs.dead) (hnear : p ∉ cs.far) : cs.Offers 0 p := by
  obtain ⟨kid, hkid, rfl, hlife⟩ := mem_dead.mp hdead
  refine ⟨kid, hkid, rfl, hlife, .inr (.inr (.inl ⟨rfl, ?_⟩))⟩
  by_contra hgroup
  exact hnear (mem_far.mpr ⟨kid, hkid, rfl, by rw [hlife]; decide, hgroup⟩)

end Children

/-- A `waitpid` that finds no child is not for one that ended. -/
theorem Moment.NoneFor.not_dead (h : m.NoneFor p) : p ∉ m.children.dead := by
  intro hp
  obtain ⟨kid, hkid, rfl, hlife⟩ := Children.mem_dead.mp hp
  refine h kid hkid ?_ (.inl rfl)
  rw [hlife]
  decide

/-- Nor is one that blocks. -/
theorem Moment.Blocks.not_dead (h : m.Blocks p) : p ∉ m.children.dead := by
  intro hp
  obtain ⟨kid, hkid, rfl, hlife⟩ := Children.mem_dead.mp hp
  exact h.2 kid hkid (.inl rfl) hlife

/-! What a step of the program does. -/

theorem Prog.advance_awaits {w : World ν κ σ} {done : Control ν κ α × World ν κ σ}
    (h : prog.advance sys w = some done) (hawaits : prog.Awaits sys p) :
    done.1.Awaits sys m p := by
  cases prog with
  | call routine next =>
    rw [advance] at h
    cases hperform : sys.perform routine w.memory with
    | returned status memory =>
      rw [hperform] at h
      cases h
      exact hawaits status
    | _ =>
      rw [hperform] at h
      cases h
      trivial
  | ret a => cases h
  | fork name next => cases h
  | waitpid pid next => cases h
  | reap pid next => cases h
  | crash =>
    cases h
    trivial
  | exit status =>
    cases h
    trivial
  | openFile name next =>
    cases h
    exact hawaits _ (World.openFile_fails_iff sys w name)
  | dup fd next =>
    cases h
    exact hawaits _
  | dup2 old new next =>
    cases h
    exact hawaits
  | close fd next =>
    cases h
    exact hawaits
  | pipe start pair next =>
    cases h
    exact hawaits _ _

namespace Config

/-- A step that is no wait reaps no child, and drops no wait. -/
theorem call_awaits (h : c.call sys = some c') :
    c'.moment.children.dead = c.moment.children.dead ∧
      c'.moment.children.far ⊆ c.moment.children.far ∧
      ∀ p, c.control.Awaits sys c.moment p → c'.control.Awaits sys c'.moment p := by
  obtain ⟨control, m⟩ := c
  cases control with
  | stopped => cases h
  | testing pid next =>
    rw [call] at h
    dsimp only at h
    split at h
    · next hechild =>
      cases h
      exact ⟨rfl, subset_rfl, fun p hawaits => hawaits.resolve_left fun hwaits =>
        hwaits.2.2 hechild⟩
    · cases h
      exact ⟨rfl, subset_rfl, fun p hawaits => hawaits.imp_left And.left⟩
  | running prog =>
    by_cases hfork : ∃ name next, prog = .fork name next
    · obtain ⟨name, next, rfl⟩ := hfork
      obtain ⟨⟨pid, m'⟩, hfork, rfl⟩ := Option.map_eq_some_iff.mp h
      rcases Moment.fork_cases hfork with ⟨hnone, rfl, hkids⟩ | ⟨q, hfree, hsome, rfl, hkids⟩
      · refine ⟨congrArg Children.dead hkids, (congrArg Children.far hkids).subset,
          fun p hawaits => ?_⟩
        change Prog.Awaits sys p (next ((sys.forks name).elim (-1) fun pid => pid)) at hawaits
        rw [hnone] at hawaits
        exact hawaits
      · refine ⟨?_, ?_, fun p hawaits => ?_⟩
        · exact (congrArg Children.dead hkids).trans Children.dead_add
        · exact (congrArg Children.far hkids).subset.trans Children.far_add
        · change Prog.Awaits sys p (next ((sys.forks name).elim (-1) fun pid => pid)) at hawaits
          rw [hsome] at hawaits
          exact hawaits
    · have hnot : ∀ name next, prog ≠ .fork name next := fun name next he =>
        hfork ⟨name, next, he⟩
      rw [call_running hnot] at h
      obtain ⟨done, hdone, rfl⟩ := Option.map_eq_some_iff.mp h
      exact ⟨rfl, subset_rfl, fun p hawaits => Prog.advance_awaits hdone hawaits⟩

end Config

/-- A `waitpid` that is not interrupted leaves no child that ended and that it was for. -/
theorem Moment.waitpid_dead {returned : Bool}
    (h : m.waitpid pid (found.elim .childless .found) = some (returned, m')) :
    m'.children.dead ⊆ m.children.dead ∧ ∀ p ∈ m'.children.dead, pid ≠ p := by
  rcases waitpid_cases h with ⟨q, _, _, hoffers, rfl⟩ | ⟨_, _, hnone, rfl⟩ |
    ⟨reaps, _, hhow, _⟩
  · refine ⟨fun p hp => Finset.mem_of_mem_erase (Children.dead_reap hp), ?_⟩
    rintro p hp rfl
    obtain rfl := hoffers.eq
    exact absurd (Children.dead_reap hp) (Finset.notMem_erase p _)
  · refine ⟨subset_rfl, ?_⟩
    rintro p hp rfl
    exact hnone.not_dead hp
  · cases found <;> cases hhow

/-- A wait drops no other wait for a child that ended. -/
theorem Config.wait_awaits (sys : System ν κ σ)
    (h : c.wait (found.elim .childless .found) = some c') :
    c'.moment.children.dead ⊆ c.moment.children.dead ∧
      c'.moment.children.far ⊆ c.moment.children.far ∧
      ∀ p ∈ c'.moment.children.dead, c.control.Awaits sys c.moment p →
        c'.control.Awaits sys c'.moment p := by
  obtain ⟨control, m⟩ := c
  cases control with
  | stopped => cases h
  | testing pid next => cases h
  | running prog =>
    cases prog with
    | waitpid pid next =>
      obtain ⟨⟨returned, m'⟩, hwaitpid, rfl⟩ := Option.map_eq_some_iff.mp h
      obtain ⟨hsub, hne⟩ := Moment.waitpid_dead hwaitpid
      refine ⟨hsub, (Moment.waitpid_evolves hwaitpid).far_subset, fun p hp hawaits => ?_⟩
      exact hawaits.resolve_left (hne p hp)
    | reap pid next =>
      obtain ⟨⟨returned, m'⟩, hwaitpid, rfl⟩ := Option.map_eq_some_iff.mp h
      obtain ⟨hsub, hne⟩ := Moment.waitpid_dead hwaitpid
      have hfar := (Moment.waitpid_evolves hwaitpid).far_subset
      cases returned with
      | true => exact ⟨hsub, hfar, fun p hp hawaits => hawaits.resolve_left (hne p hp)⟩
      | false =>
        exact ⟨hsub, hfar, fun p hp hawaits => .inr (hawaits.resolve_left (hne p hp))⟩
    | _ => cases h

/-- The same when the handler has broken into the wait at the front: it counts no longer, but for a
child in the group the loop repeats it. -/
def Control.AwaitsBroken (sys : System ν κ σ) (m : Moment ν κ σ) (p : ℕ+) : Control ν κ α → Prop
  | running (.waitpid _ next) => next.Awaits sys p
  | running (.reap pid next) => (pid = p ∧ p ∉ m.children.far) ∨ next.Awaits sys p
  | control => control.Awaits sys m p

/-- What the wait for a child depends on besides the program. -/
theorem Control.Awaits.of_moment (h : control.Awaits sys m p)
    (hfar : p ∈ m'.children.far → p ∈ m.children.far)
    (herrno : m'.errno = .echild → m.errno = .echild ∨ p ∈ m.children.far) :
    control.Awaits sys m' p := by
  cases control with
  | running prog => exact h
  | stopped => trivial
  | testing pid next =>
    refine h.imp_left fun ⟨hpid, hnear, hne⟩ => ⟨hpid, fun hp => hnear (hfar hp), fun hechild => ?_⟩
    exact (herrno hechild).elim hne hnear

/-! Steps of the process. -/

namespace Parent

/-- The program goes on only while the handler is not running. -/
theorem advance_cases {step : System ν κ σ → Config ν κ σ α → Option (Config ν κ σ α)}
    (h : s.advance step = some s') :
    ∃ sys control c, s.executing = some (sys, control) ∧ s.handler = .idle ∧
      step sys ⟨control, s.moment⟩ = some c ∧
      s' = { s with executing := some (sys, c.control), moment := c.moment } := by
  unfold advance at h
  split at h
  · next sys control hexecuting hidle =>
    obtain ⟨c, hc, rfl⟩ := Option.map_eq_some_iff.mp h
    exact ⟨sys, control, c, hexecuting, hidle, hc, rfl⟩
  · cases h

/-- What keeps the children covered: none that ended is new or outside the group, and no wait or
signal is lost. -/
theorem Covered.mono (h : s.Covered) (hdead : s'.dead ⊆ s.dead)
    (hfar : ∀ p ∈ s'.dead, p ∈ s'.far → p ∈ s.far)
    (hawaits : ∀ p ∈ s'.dead, s.Awaits p → s'.Awaits p)
    (hsignals : s.pending.toNat + s.handler.due ≤ s'.pending.toNat + s'.handler.due) :
    s'.Covered := by
  rcases h with hall | ⟨hcard, hnear⟩
  · exact .inl fun p hp => hawaits p hp (hall p (hdead hp))
  · refine .inr ⟨(Finset.card_le_card hdead).trans (hcard.trans hsignals), ?_⟩
    exact Finset.disjoint_left.mpr fun p hp hp' =>
      Finset.disjoint_left.mp hnear (hdead hp) (hfar p hp hp')

theorem awaits_idle (hexecuting : s.executing = some (sys, control))
    (hbreaks : s.handler.breaks = false) : s.Awaits p ↔ control.Awaits sys s.moment p := by
  have hresumed : s.resumed = s := by
    rw [resumed, hbreaks]
    exact if_neg Bool.false_ne_true
  rw [Awaits, hresumed, hexecuting]

theorem awaits_broken (hexecuting : s.executing = some (sys, control))
    (hbreaks : s.handler.breaks = true) :
    s.Awaits p ↔ control.AwaitsBroken sys s.moment p := by
  have hresumed : s.resumed = s.breakWait := by
    rw [resumed, hbreaks]
    exact if_pos rfl
  rw [Awaits, hresumed]
  obtain ⟨executing, moment, pending, handler⟩ := s
  obtain rfl : executing = some (sys, control) := hexecuting
  cases control with
  | running prog =>
    cases prog with
    | reap pid next =>
      change (pid = p ∧ p ∉ moment.children.far ∧ Errno.eintr ≠ .echild) ∨ _ ↔ _
      rw [and_iff_left (by decide : Errno.eintr ≠ .echild)]
      exact Iff.rfl
    | _ => exact Iff.rfl
  | testing pid next => exact Iff.rfl
  | stopped => exact Iff.rfl

theorem not_awaits (hnone : s.executing = none) : ¬ s.Awaits p := by
  have hresumed : s.resumed.executing = none := by
    rw [resumed, breakWait, hnone]
    split <;> exact hnone
  rw [Awaits, hresumed]
  exact id

/-- The handler's own `waitpid` is not what the program waits with. -/
theorem Awaits.of_moment (h : s.Awaits p) (hexecuting : s'.executing = s.executing)
    (hbreaks : s'.handler.breaks = s.handler.breaks) (hfar : p ∈ s'.far → p ∈ s.far)
    (herrno : s'.moment.errno = .echild → s.moment.errno = .echild ∨ p ∈ s.far) :
    s'.Awaits p := by
  cases he : s.executing with
  | none => exact absurd h (not_awaits he)
  | some e =>
    obtain ⟨sys, control⟩ := e
    rw [he] at hexecuting
    cases hb : s.handler.breaks with
    | false =>
      rw [awaits_idle he hb] at h
      exact (awaits_idle hexecuting (hbreaks.trans hb)).mpr (h.of_moment hfar herrno)
    | true =>
      rw [awaits_broken he hb] at h
      rw [awaits_broken hexecuting (hbreaks.trans hb)]
      cases control with
      | running prog =>
        cases prog with
        | reap pid next => exact h.imp_left fun ⟨hpid, hnear⟩ => ⟨hpid, fun hp => hnear (hfar hp)⟩
        | _ => exact h
      | testing pid next =>
        have htesting : (Control.testing pid next).Awaits sys s.moment p := h
        exact htesting.of_moment hfar herrno
      | stopped => trivial

theorem blocked_cases (hexecuting : s.executing = some (sys, control)) (h : s.blocked = true) :
    ∃ pid, s.moment.Blocks pid ∧ ((∃ next, control = .running (.waitpid pid next)) ∨
      ∃ next, control = .running (.reap pid next)) := by
  rw [blocked, hexecuting, Option.bind_some, Option.any_eq_true] at h
  obtain ⟨pid, hwaits, hblocks⟩ := h
  refine ⟨pid, of_decide_eq_true hblocks, ?_⟩
  cases control with
  | running prog =>
    cases prog with
    | waitpid pid next =>
      cases hwaits
      exact .inl ⟨next, rfl⟩
    | reap pid next =>
      cases hwaits
      exact .inr ⟨next, rfl⟩
    | _ => cases hwaits
  | testing pid next => cases hwaits
  | stopped => cases hwaits

theorem Covered.start (h : s.Covered) {i : ι} (hstep : s.step program (.start i) = some s') :
    s'.Covered := by
  rw [step] at hstep
  split at hstep
  · next hnone hidle =>
    cases hstep
    exact h.mono subset_rfl (fun _ _ hp => hp)
      (fun p _ hawaits => absurd hawaits (not_awaits hnone))
      le_rfl
  · cases hstep

theorem Covered.finish (h : s.Covered) (hstep : s.step program (.finish : Move ι) = some s') :
    s'.Covered := by
  rw [step] at hstep
  split at hstep
  · next sys a hexecuting hidle =>
    cases hstep
    refine h.mono subset_rfl (fun _ _ hp => hp) (fun p _ hawaits => ?_) le_rfl
    exact absurd ((awaits_idle hexecuting (by rw [hidle]; rfl)).mp hawaits) id
  · cases hstep

theorem Covered.call (h : s.Covered) (hstep : s.step program (.call : Move ι) = some s') :
    s'.Covered := by
  obtain ⟨sys, control, c, hexecuting, hidle, hcall, rfl⟩ := advance_cases hstep
  have hbreaks : s.handler.breaks = false := by rw [hidle]; rfl
  obtain ⟨hdead, hfar, hawaits⟩ := Config.call_awaits hcall
  refine h.mono hdead.subset (fun p _ hp => hfar hp) (fun p _ hold => ?_) le_rfl
  apply (awaits_idle (s := { s with executing := some (sys, c.control), moment := c.moment })
    rfl hbreaks).mpr
  exact hawaits p ((awaits_idle hexecuting hbreaks).mp hold)

theorem Covered.wait (h : s.Covered) (hstep : s.step program (.wait found : Move ι) = some s') :
    s'.Covered := by
  rw [step] at hstep
  obtain ⟨sys, control, c, hexecuting, hidle, hwait, rfl⟩ := advance_cases hstep
  have hbreaks : s.handler.breaks = false := by rw [hidle]; rfl
  obtain ⟨hdead, hfar, hawaits⟩ := Config.wait_awaits sys hwait
  refine h.mono hdead (fun p _ hp => hfar hp) (fun p hp hold => ?_) le_rfl
  apply (awaits_idle (s := { s with executing := some (sys, c.control), moment := c.moment })
    rfl hbreaks).mpr
  exact hawaits p hp ((awaits_idle hexecuting hbreaks).mp hold)

/-- A running child moves to another group. -/
theorem Covered.regroup {group : ℕ+} (h : s.Covered)
    (hstep : s.step program (.regroup p group : Move ι) = some s') : s'.Covered := by
  rw [step] at hstep
  split at hstep
  · next hruns =>
    cases hstep
    have hfar : ∀ p' ∈ s.dead, p' ∈ (s.moment.children.regroup p group).far → p' ∈ s.far := by
      intro p' hdead hp'
      refine (Children.far_regroup hp').resolve_left ?_
      rintro rfl
      exact Children.not_dead_of_running hruns hdead
    have hdead := Children.dead_regroup s.moment.children p group
    refine h.mono hdead.subset (fun p' hp' => hfar p' (hdead.subset hp')) (fun p' hp' hold => ?_)
      le_rfl
    exact hold.of_moment rfl rfl (hfar p' (hdead.subset hp')) fun hechild => .inl hechild
  · cases hstep

/-- A child ends. -/
theorem Covered.terminate (hnoticed : s.Noticed (.terminate p : Move ι))
    (hstep : s.step program (.terminate p : Move ι) = some s') : s'.Covered := by
  obtain ⟨m, hdisturb, rfl⟩ := Option.map_eq_some_iff.mp hstep
  obtain ⟨q, ⟨⟩, _, rfl⟩ | ⟨_, ⟨⟩, _⟩ := Moment.disturb_cases hdisturb
  have hdead : (s.moment.children.terminate p).dead ⊆ insert p s.dead := Children.dead_terminate
  have hfar : (s.moment.children.terminate p).far ⊆ s.far :=
    (Children.Evolves.terminate s.moment.children p).far_subset
  rcases hnoticed p rfl with hall | ⟨hdue, hnear⟩
  · left
    intro p' hp'
    exact (hall p' (hdead hp')).of_moment rfl rfl (fun hp => hfar hp) fun hechild => .inl hechild
  · right
    refine ⟨?_, hnear.mono hdead hfar⟩
    calc (s.moment.children.terminate p).dead.card
        ≤ (insert p s.dead).card := Finset.card_le_card hdead
      _ ≤ s.dead.card + 1 := Finset.card_insert_le p s.dead
      _ ≤ s.handler.due + 1 := Nat.succ_le_succ hdue
      _ = true.toNat + s.handler.due := Nat.add_comm _ _

/-- The handler is entered: a wait that it breaks into is for no child that ended. -/
theorem Covered.deliver (h : s.Covered) {breaks : Bool}
    (hstep : s.step program (.deliver breaks : Move ι) = some s') : s'.Covered := by
  rw [step] at hstep
  split at hstep
  · next hdeliver =>
    obtain ⟨hidle, hpending, hblocked⟩ := hdeliver
    cases hstep
    refine h.mono subset_rfl (fun _ _ hp => hp) (fun p hp hold => ?_) ?_
    · cases hexecuting : s.executing with
      | none => exact absurd hold (not_awaits hexecuting)
      | some e =>
        obtain ⟨sys, control⟩ := e
        rw [awaits_idle hexecuting (by rw [hidle]; rfl)] at hold
        cases breaks with
        | false =>
          exact (awaits_idle (s := ⟨some (sys, control), s.moment, false, .entered false⟩)
            rfl rfl).mpr hold
        | true =>
          apply (awaits_broken (s := ⟨some (sys, control), s.moment, false, .entered true⟩)
            rfl rfl).mpr
          obtain ⟨pid, hblocks, hcontrol⟩ := blocked_cases hexecuting (hblocked rfl)
          have hne : pid ≠ p := by
            rintro rfl
            exact hblocks.not_dead hp
          obtain ⟨next, rfl⟩ | ⟨next, rfl⟩ := hcontrol
          · exact hold.resolve_left hne
          · exact .inr (hold.resolve_left hne)
    · rw [hpending, hidle]
      exact le_rfl
  · cases hstep

/-- The handler reaps a child that ended if there is one in the group. -/
theorem Covered.reap (h : s.Covered) (hstep : s.step program (.reap found : Move ι) = some s') :
    s'.Covered := by
  rw [step] at hstep
  split at hstep
  · next breaks hentered =>
    split at hstep
    · next hprecise =>
      obtain ⟨m, hhandle, rfl⟩ := Option.map_eq_some_iff.mp hstep
      have hfar : m.children.far ⊆ s.far := (Moment.handle_evolves hhandle).far_subset
      have hbreaks : (Handler.waited breaks).breaks = s.handler.breaks := by
        rw [hentered]
        rfl
      rcases Moment.handle_cases hhandle with ⟨q, rfl, hoffers, rfl⟩ | ⟨rfl, _, rfl⟩ | ⟨rfl, _, rfl⟩
      · have hsub : (s.moment.children.reap q).dead ⊆ s.moment.children.dead.erase q :=
          Children.dead_reap
        rcases h with hall | ⟨hcard, hnear⟩
        · left
          intro p hp
          refine (hall p (Finset.mem_of_mem_erase (hsub hp))).of_moment rfl hbreaks
            (fun hp => hfar hp) fun hechild => .inl hechild
        · right
          refine ⟨?_, hnear.mono (hsub.trans (Finset.erase_subset _ _)) hfar⟩
          have hmem : q ∈ s.moment.children.dead := Children.mem_dead.mpr hoffers.has
          have herase := Finset.card_erase_of_mem hmem
          have hless := Finset.card_le_card hsub
          rw [hentered] at hcard
          change s.moment.children.dead.card ≤ s.pending.toNat + 1 at hcard
          change (s.moment.children.reap q).dead.card ≤ s.pending.toNat + 0
          omega
      · left
        intro p hp
        rcases h with hall | ⟨_, hnear⟩
        · exact (hall p hp).of_moment rfl hbreaks (fun hp => hp) fun _ => .inr (hprecise rfl hp)
        · exact absurd (hprecise rfl hp) (Finset.disjoint_left.mp hnear hp)
      · left
        intro p hp
        rcases h with hall | ⟨_, hnear⟩
        · exact (hall p hp).of_moment rfl hbreaks (fun hp => hp) fun hechild => .inl hechild
        · exact absurd (hprecise rfl hp) (Finset.disjoint_left.mp hnear hp)
    · cases hstep
  · cases hstep

theorem resumed_frame (s : Parent ν κ σ α) : s.resumed.dead = s.dead ∧ s.resumed.far = s.far ∧
    s.resumed.pending = s.pending := by
  rw [resumed, breakWait]
  split
  · split <;> exact ⟨rfl, rfl, rfl⟩
  · exact ⟨rfl, rfl, rfl⟩

/-- It returns. -/
theorem Covered.resume (h : s.Covered) (hstep : s.step program (.resume : Move ι) = some s') :
    s'.Covered := by
  rw [step] at hstep
  split at hstep
  · next breaks hwaited =>
    cases hstep
    obtain ⟨hdead, hfar, hpending⟩ := s.resumed_frame
    refine h.mono hdead.subset (fun p _ hp => hfar.subset hp) (fun p _ hold => ?_) ?_
    · exact hold
    · rw [hwaited]
      exact (congrArg Bool.toNat hpending).ge
  · cases hstep

/-- What every noticed step keeps. -/
theorem Covered.step (h : s.Covered) (hnoticed : s.Noticed move)
    (hstep : s.step program move = some s') : s'.Covered := by
  cases move with
  | start i => exact h.start hstep
  | call => exact h.call hstep
  | wait found => exact h.wait hstep
  | finish => exact h.finish hstep
  | regroup p group => exact h.regroup hstep
  | terminate p => exact .terminate hnoticed hstep
  | deliver breaks => exact h.deliver hstep
  | reap found => exact h.reap hstep
  | resume => exact h.resume hstep

theorem Covered.reaches (h : s.Covered) (hrun : s.Reaches program Noticed s') : s'.Covered := by
  induction hrun with
  | refl => exact h
  | tail _ hmove ih =>
    obtain ⟨move, hnoticed, hstep⟩ := hmove
    exact ih.step hnoticed hstep

/-- Between two programs, with no signal to come, no child that ended is left. -/
theorem Covered.dead_eq_empty (h : s.Covered) (hnone : s.executing = none)
    (hpending : s.pending = false) (hdue : s.handler.due = 0) : s.dead = ∅ := by
  rcases h with hall | ⟨hcard, _⟩
  · exact Finset.eq_empty_of_forall_notMem fun p hp => absurd (hall p hp) (not_awaits hnone)
  · rw [hpending, hdue] at hcard
    exact Finset.card_eq_zero.mp (Nat.le_zero.mp hcard)

/-! Deaths that are not noticed between two programs. -/

/-- A child that ended outside the group. -/
def Astray (cs : Children) (kid : Kid) : Prop :=
  kid ∈ cs.kids ∧ kid.life = .terminated ∧ kid.group ≠ cs.group

theorem Astray.mem_dead {kid : Kid} (h : Astray cs kid) : kid.pid ∈ cs.dead :=
  Children.mem_dead.mpr ⟨kid, h.1, rfl, h.2.1⟩

theorem exists_astray (hdead : p ∈ cs.dead) (hfar : p ∈ cs.far) : ∃ kid, Astray cs kid := by
  obtain ⟨kid, hkid, hpid, hlife⟩ := Children.mem_dead.mp hdead
  obtain ⟨kid', hkid', hpid', hlife', hgroup⟩ := Children.mem_far.mp hfar
  have hsame := cs.distinct kid' hkid' kid hkid hlife' (by rw [hlife]; decide)
    (hpid'.trans hpid.symm)
  exact ⟨kid, hkid, hlife, hsame ▸ hgroup⟩

/-- The handler's `waitpid` always returns; it reaps one child at most, and none outside the
group. -/
theorem exists_handle (m : Moment ν κ σ) :
    ∃ found m', (found = none → m.children.dead ⊆ m.children.far) ∧ m.handle found = some m' ∧
      m.children.dead.card ≤ m'.children.dead.card + 1 ∧
      ∀ kid, Astray m.children kid → Astray m'.children kid := by
  by_cases hfar : m.children.dead ⊆ m.children.far
  · have hcard : m.children.dead.card ≤ m.children.dead.card + 1 := Nat.le_succ _
    by_cases hnone : m.NoneFor 0
    · exact ⟨none, _, fun _ => hfar, if_pos hnone, hcard, fun _ hkid => hkid⟩
    · exact ⟨none, _, fun _ => hfar, if_neg hnone, hcard, fun _ hkid => hkid⟩
  · obtain ⟨q, hq, hnear⟩ := Finset.not_subset.mp hfar
    have hoffers := Children.offers_of_near hq hnear
    refine ⟨some q, _, by rintro ⟨⟩, if_pos hoffers, ?_, ?_⟩
    · have hcard := Finset.card_le_card (Children.erase_dead_subset : m.children.dead.erase q ⊆ _)
      rw [Finset.card_erase_of_mem hq] at hcard
      exact Nat.le_add_of_sub_le hcard
    · rintro kid ⟨hkid, hlife, hgroup⟩
      have hne : kid.pid ≠ q := by
        rintro rfl
        exact hnear (Children.mem_far.mpr ⟨kid, hkid, rfl, by rw [hlife]; decide, hgroup⟩)
      refine ⟨List.mem_map.mpr ⟨kid, hkid, ?_⟩, hlife, hgroup⟩
      rw [Kid.change, if_neg fun h => hne h.1]

theorem step_resume {breaks : Bool} (hnone : s.executing = none)
    (hwaited : s.handler = .waited breaks) :
    s.step program (.resume : Move ι) = some { s with handler := .idle } := by
  have hresumed : s.resumed = s := by
    rw [resumed, breakWait, hnone]
    split <;> rfl
  rw [step, hwaited]
  dsimp only
  rw [hresumed]

/-- Between two programs the handler can always return. -/
theorem exists_handled (program : ι → σ → System ν κ σ × Prog ν κ α) (s : Parent ν κ σ α)
    (hnone : s.executing = none) :
    ∃ s', s.Reaches program (fun _ _ => True) s' ∧ s'.executing = none ∧
      s'.pending = s.pending ∧ s'.handler = .idle ∧ s.dead.card ≤ s'.dead.card + s.handler.due ∧
      ∀ kid, Astray s.moment.children kid → Astray s'.moment.children kid := by
  cases hhandler : s.handler with
  | idle => exact ⟨s, .refl, hnone, rfl, hhandler, Nat.le_refl _, fun _ hkid => hkid⟩
  | waited breaks =>
    exact ⟨_, .single ⟨.resume, trivial, step_resume hnone hhandler⟩, hnone, rfl, rfl,
      Nat.le_refl _, fun _ hkid => hkid⟩
  | entered breaks =>
    obtain ⟨found, m, hprecise, hhandle, hcard, hastray⟩ := exists_handle s.moment
    have hreap : s.step program (.reap found) =
        some { s with moment := m, handler := .waited breaks } := by
      rw [step, hhandler]
      exact (if_pos hprecise).trans (congrArg (Option.map _) hhandle)
    have hresume : ({ s with moment := m, handler := .waited breaks } : Parent ν κ σ α).step program
        .resume = some { s with moment := m, handler := .idle } := step_resume hnone rfl
    exact ⟨_, .head ⟨_, trivial, hreap⟩ (.single ⟨_, trivial, hresume⟩), hnone, rfl, rfl, hcard,
      hastray⟩

/-- When a child ends unnoticed between two programs, one may be left when the signal has been
handled. -/
theorem exists_zombie (program : ι → σ → System ν κ σ × Prog ν κ α) (hnone : s.executing = none)
    (hruns : s.moment.children.Has p .running) (hnot : ¬ s.Noticed (.terminate p : Move ι)) :
    ∃ s', s.Reaches program (fun _ _ => True) s' ∧ s'.executing = none ∧ s'.pending = false ∧
      s'.handler = .idle ∧ s'.dead ≠ ∅ := by
  have hterminate : s.step program (.terminate p) = some { s with
      moment := { s.moment with children := s.moment.children.terminate p }, pending := true } := by
    rw [step, Moment.disturb, if_pos hruns]
    rfl
  obtain ⟨s₁, hreach₁, hnone₁, hpending₁, hidle₁, hcard₁, hastray₁⟩ := exists_handled program
    { s with moment := { s.moment with children := s.moment.children.terminate p },
             pending := true } hnone
  have hdeliver : s₁.step program (.deliver false) =
      some { s₁ with pending := false, handler := .entered false } :=
    if_pos ⟨hidle₁, hpending₁, by rintro ⟨⟩⟩
  obtain ⟨s₂, hreach₂, hnone₂, hpending₂, hidle₂, hcard₂, hastray₂⟩ := exists_handled program
    { s₁ with pending := false, handler := .entered false } hnone₁
  have hreach := (Relation.ReflTransGen.head ⟨_, trivial, hterminate⟩ hreach₁).trans
    (.head ⟨_, trivial, hdeliver⟩ hreach₂)
  refine ⟨s₂, hreach, hnone₂, hpending₂, hidle₂, fun hempty => ?_⟩
  have hinsert := Children.insert_dead_subset hruns
  by_cases hnear : Disjoint (insert p s.dead) s.far
  · -- All are in the group, but too many for the runs of the handler.
    have hmany : s.handler.due < s.dead.card := by
      by_contra hfew
      exact hnot fun p' hp' => .inr ⟨by omega, by cases hp'; exact hnear⟩
    have hmore : s.dead.card + 1 ≤ (s.moment.children.terminate p).dead.card := by
      have hcard := Finset.card_le_card hinsert
      rwa [Finset.card_insert_of_notMem (Children.not_dead_of_running hruns)] at hcard
    change (s.moment.children.terminate p).dead.card ≤ s₁.dead.card + s.handler.due at hcard₁
    change s₁.dead.card ≤ s₂.dead.card + 1 at hcard₂
    rw [hempty, Finset.card_empty] at hcard₂
    omega
  · obtain ⟨p', hp', hfar⟩ := Finset.not_disjoint_iff.mp hnear
    obtain ⟨kid, hkid⟩ := exists_astray (hinsert hp') (Children.far_terminate hfar)
    have hdead := (hastray₂ kid (hastray₁ kid hkid)).mem_dead
    change kid.pid ∈ s₂.dead at hdead
    rw [hempty] at hdead
    exact absurd hdead (Finset.notMem_empty _)

/-- The steps of the handler, when no child ends meanwhile, are one step around the program: the
wait that it broke into is interrupted, or nothing happens but what the handler does. -/
theorem handler_step {breaks : Bool} {s₁ s₂ s₃ : Parent ν κ σ α}
    (hexecuting : s.executing = some (sys, control))
    (hdeliver : s.step program (.deliver breaks : Move ι) = some s₁)
    (hreap : s₁.step program (.reap found : Move ι) = some s₂)
    (hresume : s₂.step program (.resume : Move ι) = some s₃) :
    ∃ c, (⟨control, s.moment⟩ : Config ν κ σ α).step sys
        (if breaks then .wait (.interrupted found) else .disturb (.handle found)) = some c ∧
      s₃.executing = some (sys, c.control) ∧ s₃.moment = c.moment := by
  rw [step] at hdeliver
  split at hdeliver
  · next hready =>
    cases hdeliver
    rw [step] at hreap
    dsimp only at hreap
    split at hreap
    · obtain ⟨m, hhandle, rfl⟩ := Option.map_eq_some_iff.mp hreap
      cases hresume
      cases breaks with
      | false =>
        refine ⟨⟨control, m⟩, ?_, hexecuting, rfl⟩
        exact congrArg (Option.map _) hhandle
      | true =>
        have hwait : ∀ pid, s.moment.Blocks pid → s.moment.waitpid pid (.interrupted found) =
            some (false, { m with errno := .eintr }) := by
          intro pid hblocks
          rw [Moment.waitpid, if_pos hblocks, hhandle]
          rfl
        obtain ⟨pid, hblocks, ⟨next, rfl⟩ | ⟨next, rfl⟩⟩ :=
          blocked_cases hexecuting (hready.2.2 rfl)
        · refine ⟨_, congrArg (Option.map _) (hwait pid hblocks), ?_, ?_⟩ <;>
            simp [resumed, Handler.breaks, breakWait, hexecuting, Moment.log]
        · refine ⟨_, congrArg (Option.map _) (hwait pid hblocks), ?_, ?_⟩ <;>
            simp [resumed, Handler.breaks, breakWait, hexecuting]
    · cases hreap
  · cases hdeliver

theorem play_append (moves moves' : List (Move ι)) (s : Parent ν κ σ α) :
    s.play program (moves ++ moves') = (s.play program moves).bind (play program moves') := by
  induction moves generalizing s with
  | nil => rfl
  | cons move moves ih =>
    change (s.step program move).bind _ = ((s.step program move).bind _).bind _
    rw [Option.bind_assoc]
    exact congrArg _ (funext ih)

theorem reaches_of_play {moves : List (Move ι)} (hok : ∀ move ∈ moves, ∀ s, ok s move)
    (h : s.play program moves = some s') : s.Reaches program ok s' := by
  induction moves generalizing s with
  | nil =>
    cases h
    exact .refl
  | cons move moves ih =>
    obtain ⟨hmove, hmoves⟩ := List.forall_mem_cons.mp hok
    obtain ⟨next, hstep, hplay⟩ := Option.bind_eq_some_iff.mp h
    exact .head ⟨move, hmove s, hstep⟩ (ih hmoves hplay)

end Parent

end Redshell
