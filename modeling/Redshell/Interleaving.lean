import Redshell.Children
import Redshell.Process

/-! Programs whose children end, and whose handler of SIGCHLD runs, at any moment. -/
namespace Redshell

/-- The values of `errno` that a `waitpid` leaves, and the others. -/
inductive Errno where
  | eintr
  | echild
  | other
  deriving DecidableEq

/-- What a step starts from: all but the program itself. -/
structure Moment (ν κ σ : Type) where
  world : World ν κ σ
  children : Children
  errno : Errno

/-- How a `waitpid` that may block returns: with a child, for want of one, or interrupted by the
handler, which may reap a child of its own. -/
inductive Wait where
  | found (p : ℕ+)
  | childless
  | interrupted (reaps : Option ℕ+)

/-- What happens around a program: a child ends, or the handler runs; here the children stay in
their process groups. -/
inductive Disturbance where
  | terminate (p : ℕ+)
  | handle (reaps : Option ℕ+)

inductive Act where
  | call
  | wait (wait : Wait)
  | disturb (d : Disturbance)

/-- Where a program is: at a call, or between the `waitpid` of a `reap` and the test of `errno`. -/
inductive Control (ν κ α : Type) where
  | running (program : Prog ν κ α)
  | testing (pid : Int) (next : Prog ν κ α)
  | stopped

structure Config (ν κ σ α : Type) where
  control : Control ν κ α
  moment : Moment ν κ σ

/-- What a program is about to do, as far as its children and its routines go. -/
inductive Request (κ : Type) where
  | fork (name : Nat)
  | waitpid (pid : Int)
  | call (routine : κ)
  deriving DecidableEq

def Control.request {ν κ α : Type} : Control ν κ α → Option (Request κ)
  | .running (.fork name _) => some (.fork name)
  | .running (.waitpid pid _) => some (.waitpid pid)
  | .running (.call routine _) => some (.call routine)
  | _ => none

def Control.value {ν κ α : Type} : Control ν κ α → Option α
  | .running (.ret a) => some a
  | _ => none

/-- The children that a `waitpid` in a process of this group is for. -/
def Selects (group : ℕ+) (pid : Int) (kid : Kid) : Prop :=
  pid = kid.pid ∨ pid = -1 ∨ pid = 0 ∧ kid.group = group ∨ pid = -(kid.group : Int)

instance (group : ℕ+) (pid : Int) (kid : Kid) : Decidable (Selects group pid kid) :=
  inferInstanceAs (Decidable
    (pid = kid.pid ∨ pid = -1 ∨ pid = 0 ∧ kid.group = group ∨ pid = -(kid.group : Int)))

/-- A `waitpid` can return the pid: its child has ended. -/
def Children.Offers (cs : Children) (pid : Int) (p : ℕ+) : Prop :=
  ∃ kid ∈ cs.kids, kid.pid = p ∧ kid.life = .terminated ∧ Selects cs.group pid kid

instance (cs : Children) (pid : Int) (p : ℕ+) : Decidable (cs.Offers pid p) :=
  inferInstanceAs (Decidable
    (∃ kid ∈ cs.kids, kid.pid = p ∧ kid.life = .terminated ∧ Selects cs.group pid kid))

variable {ν κ σ α β : Type} {sys : System ν κ σ} {m m' : Moment ν κ σ} {pid : Int} {p : ℕ+}
  {how : Wait} {act : Act} {d : Disturbance} {k : α → Prog ν κ β} {prog : Prog ν κ α}
  {control : Control ν κ α} {w w' : World ν κ σ}

namespace Moment

/-- No child is left for a `waitpid`. -/
def NoneFor (m : Moment ν κ σ) (pid : Int) : Prop :=
  ∀ kid ∈ m.children.kids, kid.life ≠ .reaped → ¬ Selects m.children.group pid kid

/-- A `waitpid` has children to wait for, and none of them has ended. -/
def Blocks (m : Moment ν κ σ) (pid : Int) : Prop :=
  ¬ m.NoneFor pid ∧
    ∀ kid ∈ m.children.kids, Selects m.children.group pid kid → kid.life ≠ .terminated

instance (m : Moment ν κ σ) (pid : Int) : Decidable (m.NoneFor pid) :=
  inferInstanceAs (Decidable
    (∀ kid ∈ m.children.kids, kid.life ≠ .reaped → ¬ Selects m.children.group pid kid))

instance (m : Moment ν κ σ) (pid : Int) : Decidable (m.Blocks pid) :=
  inferInstanceAs (Decidable (_ ∧ ∀ kid ∈ m.children.kids, _ → kid.life ≠ .terminated))

def log (m : Moment ν κ σ) (event : Event ν κ) : Moment ν κ σ :=
  { m with world := m.world.log event }

/-- `waitpid(0, NULL, WNOHANG)` in the handler: it reaps one child of the group that ended, or
none. -/
def handle (m : Moment ν κ σ) : Option ℕ+ → Option (Moment ν κ σ)
  | some p =>
    if m.children.Offers 0 p then some { m with children := m.children.reap p } else none
  | none => if m.NoneFor 0 then some { m with errno := .echild } else some m

def disturb (m : Moment ν κ σ) : Disturbance → Option (Moment ν κ σ)
  | .terminate p =>
    if m.children.Has p .running then some { m with children := m.children.terminate p } else none
  | .handle reaps => m.handle reaps

/-- Whether a `waitpid` without WNOHANG returns a pid; on -1 it sets `errno`, after any handler. -/
def waitpid (m : Moment ν κ σ) (pid : Int) : Wait → Option (Bool × Moment ν κ σ)
  | .found p =>
    if m.children.Offers pid p then
      some (true, { m with children := m.children.reap p })
    else none
  | .childless => if m.NoneFor pid then some (false, { m with errno := .echild }) else none
  | .interrupted reaps =>
    if m.Blocks pid then (m.handle reaps).map fun m => (false, { m with errno := .eintr }) else none

end Moment

/-- What `fork` returns: -1, or a pid that no child keeps. -/
def Moment.fork (sys : System ν κ σ) (m : Moment ν κ σ) (name : Nat) :
    Option (Int × Moment ν κ σ) :=
  match sys.forks name with
  | none => some (-1, m.log (.fork name (-1)))
  | some p =>
    if h : m.children.Free p then
      some (p, { m.log (.fork name p) with children := m.children.add name p h })
    else none

/-- The calls that the children do not matter to. -/
def Prog.advance (sys : System ν κ σ) :
    Prog ν κ α → World ν κ σ → Option (Control ν κ α × World ν κ σ)
  | .dup fd next, w => some (.running (next (w.dup sys fd).1), (w.dup sys fd).2)
  | .dup2 old new next, w => some (.running next, w.dup2 old new)
  | .close fd next, w => some (.running next, w.close fd)
  | .openFile name next, w =>
    some (.running (next (w.openFile sys name).1), (w.openFile sys name).2)
  | .pipe start pair next, w =>
    some (.running (next (w.pipe sys start pair).1 (w.pipe sys start pair).2.1),
      (w.pipe sys start pair).2.2)
  | .call routine next, w =>
    match sys.perform routine w.memory with
    | .returned status memory =>
      some (.running (next status), { w.log (.call routine) with memory := memory })
    | _ => some (.stopped, w.log (.call routine))
  | .exit status, w => some (.stopped, w.log (.exit status))
  | .crash, w => some (.stopped, w)
  | _, _ => none

namespace Config

/-- A step of the program that is no wait. -/
def call (sys : System ν κ σ) (c : Config ν κ σ α) : Option (Config ν κ σ α) :=
  match c.control with
  | .running (.fork name next) =>
    (c.moment.fork sys name).map fun made => ⟨.running (next made.1), made.2⟩
  | .running prog =>
    (prog.advance sys c.moment.world).map fun done => ⟨done.1, { c.moment with world := done.2 }⟩
  | .testing pid next =>
    if c.moment.errno = .echild then some ⟨.running next, c.moment.log (.reap pid)⟩
    else some ⟨.running (.reap pid next), c.moment⟩
  | .stopped => none

/-- The `waitpid` of a `reap` is tested, that of a `waitpid` is not. -/
def wait (c : Config ν κ σ α) (wait : Wait) : Option (Config ν κ σ α) :=
  match c.control with
  | .running (.waitpid pid next) =>
    (c.moment.waitpid pid wait).map fun done => ⟨.running next, done.2.log (.waitpid pid)⟩
  | .running (.reap pid next) =>
    (c.moment.waitpid pid wait).map fun done =>
      if done.1 then ⟨.running next, done.2.log (.reap pid)⟩ else ⟨.testing pid next, done.2⟩
  | _ => none

def step (sys : System ν κ σ) (c : Config ν κ σ α) : Act → Option (Config ν κ σ α)
  | .call => c.call sys
  | .wait wait => c.wait wait
  | .disturb d => (c.moment.disturb d).map fun m => ⟨c.control, m⟩

theorem call_running (h : ∀ name next, prog ≠ .fork name next) (m : Moment ν κ σ) :
    (⟨.running prog, m⟩ : Config ν κ σ α).call sys =
      (prog.advance sys m.world).map fun done => ⟨done.1, { m with world := done.2 }⟩ := by
  cases prog with
  | fork name next => exact absurd rfl (h name next)
  | _ => rfl

/-- A step that is allowed where it is taken. -/
def Moves (sys : System ν κ σ) (ok : Option (Request κ) → Moment ν κ σ → Act → Prop)
    (c c' : Config ν κ σ α) : Prop :=
  ∃ act, ok c.control.request c.moment act ∧ c.step sys act = some c'

def Reaches (sys : System ν κ σ) (ok : Option (Request κ) → Moment ν κ σ → Act → Prop) :
    Config ν κ σ α → Config ν κ σ α → Prop := Relation.ReflTransGen (Moves sys ok)

/-- A schedule. -/
def play (sys : System ν κ σ) : List Act → Config ν κ σ α → Option (Config ν κ σ α)
  | [], c => some c
  | act :: acts, c => (c.step sys act).bind (play sys acts)

end Config

theorem Control.eq_of_value {a : α} (h : control.value = some a) : control = .running (.ret a) := by
  cases control with
  | running prog =>
    cases prog with
    | ret b =>
      cases h
      rfl
    | _ => cases h
  | testing pid next => cases h
  | stopped => cases h

/-- Every step is allowed. -/
def anyStep (_ : Option (Request κ)) (_ : Moment ν κ σ) (_ : Act) : Prop := True

variable {c c' : Config ν κ σ α} {ok : Option (Request κ) → Moment ν κ σ → Act → Prop}

theorem Config.reaches_of_play {acts : List Act} (hok : ∀ act ∈ acts, ∀ r m, ok r m act)
    (h : c.play sys acts = some c') : c.Reaches sys ok c' := by
  induction acts generalizing c with
  | nil =>
    cases h
    exact .refl
  | cons act acts ih =>
    obtain ⟨hact, hacts⟩ := List.forall_mem_cons.mp hok
    obtain ⟨next, hstep, hplay⟩ := Option.bind_eq_some_iff.mp h
    exact .head ⟨act, hact _ _, hstep⟩ (ih hacts hplay)

/-! All that can happen. -/

namespace Moment

theorem handle_cases {reaps : Option ℕ+} (h : m.handle reaps = some m') :
    (∃ p, reaps = some p ∧ m.children.Offers 0 p ∧
      m' = { m with children := m.children.reap p }) ∨
    (reaps = none ∧ m.NoneFor 0 ∧ m' = { m with errno := .echild }) ∨
    (reaps = none ∧ ¬ m.NoneFor 0 ∧ m' = m) := by
  unfold handle at h
  split at h
  · split at h <;> cases h
    exact .inl ⟨_, rfl, ‹_›, rfl⟩
  · split at h <;> cases h
    · exact .inr (.inl ⟨rfl, ‹_›, rfl⟩)
    · exact .inr (.inr ⟨rfl, ‹_›, rfl⟩)

theorem disturb_cases (h : m.disturb d = some m') :
    (∃ p, d = .terminate p ∧ m.children.Has p .running ∧
      m' = { m with children := m.children.terminate p }) ∨
    (∃ reaps, d = .handle reaps ∧ m.handle reaps = some m') := by
  cases d with
  | terminate p =>
    rw [disturb] at h
    split at h <;> cases h
    exact .inl ⟨p, rfl, ‹_›, rfl⟩
  | handle reaps => exact .inr ⟨reaps, rfl, h⟩

theorem waitpid_cases {found : Bool} (h : m.waitpid pid how = some (found, m')) :
    (∃ p, how = .found p ∧ found = true ∧ m.children.Offers pid p ∧
      m' = { m with children := m.children.reap p }) ∨
    (how = .childless ∧ found = false ∧ m.NoneFor pid ∧ m' = { m with errno := .echild }) ∨
    (∃ reaps m₁, how = .interrupted reaps ∧ found = false ∧ m.Blocks pid ∧
      m.handle reaps = some m₁ ∧ m' = { m₁ with errno := .eintr }) := by
  cases how with
  | found p =>
    rw [waitpid] at h
    split at h
    · next hoffers =>
      cases h
      exact .inl ⟨p, rfl, rfl, hoffers, rfl⟩
    · cases h
  | childless =>
    rw [waitpid] at h
    split at h <;> cases h
    exact .inr (.inl ⟨rfl, rfl, ‹_›, rfl⟩)
  | interrupted reaps =>
    rw [waitpid] at h
    split at h
    · next hblocks =>
      obtain ⟨m₁, hhandle, hm'⟩ := Option.map_eq_some_iff.mp h
      cases hm'
      exact .inr (.inr ⟨reaps, m₁, rfl, rfl, hblocks, hhandle, rfl⟩)
    · cases h

theorem fork_cases {name : Nat} (h : m.fork sys name = some (pid, m')) :
    (sys.forks name = none ∧ pid = -1 ∧ m'.children = m.children) ∨
    (∃ p, ∃ hfree : m.children.Free p, sys.forks name = some p ∧ pid = p ∧
      m'.children = m.children.add name p hfree) := by
  unfold fork at h
  split at h
  · cases h
    exact .inl ⟨‹_›, rfl, rfl⟩
  · split at h <;> cases h
    exact .inr ⟨_, ‹_›, ‹_›, rfl, rfl⟩

/-! What happens to the children. -/

theorem handle_evolves {reaps : Option ℕ+} (h : m.handle reaps = some m') :
    m.children.Evolves m'.children := by
  rcases handle_cases h with ⟨p, _, _, rfl⟩ | ⟨_, _, rfl⟩ | ⟨_, _, rfl⟩
  · exact .reap _ p
  · exact .refl _
  · exact .refl _

theorem disturb_evolves (h : m.disturb d = some m') : m.children.Evolves m'.children := by
  rcases disturb_cases h with ⟨p, _, _, rfl⟩ | ⟨reaps, _, hhandle⟩
  · exact .terminate _ p
  · exact handle_evolves hhandle

theorem waitpid_evolves {found : Bool} (h : m.waitpid pid how = some (found, m')) :
    m.children.Evolves m'.children := by
  rcases waitpid_cases h with ⟨p, _, _, _, rfl⟩ | ⟨_, _, _, rfl⟩ |
    ⟨reaps, m₁, _, _, _, hhandle, rfl⟩
  · exact .reap _ p
  · exact .refl _
  · have hevolves : m.children.Evolves m₁.children := handle_evolves hhandle
    exact hevolves

end Moment

theorem Selects.eq_of_pos {group : ℕ+} {kid : Kid} (h : Selects group pid kid) (hpid : 0 < pid) :
    pid = kid.pid := by
  have hpos := kid.group.pos
  rcases h with h | h | ⟨h, _⟩ | h
  · exact h
  · omega
  · omega
  · omega

theorem Children.Offers.has {cs : Children} (h : cs.Offers pid p) : cs.Has p .terminated := by
  obtain ⟨kid, hkid, hpid, hlife, _⟩ := h
  exact ⟨kid, hkid, hpid, hlife⟩

/-- A `waitpid` for a pid returns no other. -/
theorem Children.Offers.eq {cs : Children} {p' : ℕ+} (h : cs.Offers p p') : p = p' := by
  obtain ⟨kid, _, rfl, _, hselects⟩ := h
  exact_mod_cast hselects.eq_of_pos (by exact_mod_cast p.pos)

theorem Moment.free_of_noneFor (h : m.NoneFor p) : m.children.Free p := by
  intro kid hkid hlife hpid
  exact h kid hkid hlife (.inl (by rw [hpid]))

/-- When a `waitpid` for a pid returns it, no child keeps it. -/
theorem Moment.waitpid_found_free (h : m.waitpid p how = some (true, m')) :
    m'.children.Free p := by
  rcases waitpid_cases h with ⟨p', _, _, hoffers, rfl⟩ | ⟨_, hfound, _⟩ |
    ⟨_, _, _, hfound, _⟩
  · obtain rfl := hoffers.eq
    exact Children.free_reap hoffers.has
  · cases hfound
  · cases hfound

/-- No child in the group is left for a `waitpid`. -/
def Moment.NoneNear (m : Moment ν κ σ) (pid : Int) : Prop :=
  ∀ kid ∈ m.children.kids, kid.life ≠ .reaped → kid.group = m.children.group →
    ¬ Selects m.children.group pid kid

theorem Moment.NoneFor.near (h : m.NoneFor pid) : m.NoneNear pid :=
  fun kid hkid hlife _ => h kid hkid hlife

theorem Moment.NoneNear.gone (h : m.NoneNear p) : m.children.Gone p := by
  intro kid hkid hlife hgroup hpid
  exact h kid hkid hlife hgroup (.inl (by rw [hpid]))

/-- When a `waitpid` fails with ECHILD, there was no child for it. -/
theorem Moment.waitpid_failed (h : m.waitpid pid how = some (false, m')) :
    m'.errno = .echild → m'.NoneNear pid := by
  rcases waitpid_cases h with ⟨_, _, hfound, _⟩ | ⟨_, _, hnone, rfl⟩ | ⟨_, _, _, _, _, _, rfl⟩
  · cases hfound
  · exact fun _ => hnone.near
  · rintro ⟨⟩

/-- When a `waitpid` for a pid is not interrupted, no child keeps the pid after it. -/
theorem Moment.waitpid_free {found : Bool} (h : m.waitpid p how = some (found, m'))
    (hhow : ∀ reaps, how ≠ .interrupted reaps) : m'.children.Free p := by
  rcases waitpid_cases h with ⟨_, _, rfl, _⟩ | ⟨_, _, hnone, rfl⟩ | ⟨reaps, _, rfl, _⟩
  · exact waitpid_found_free h
  · exact free_of_noneFor hnone
  · exact absurd rfl (hhow reaps)

/-- The handler sets ECHILD only when there is no child in the group at all. -/
theorem Moment.disturb_childless (h : m.disturb d = some m')
    (herrno : m.errno = .echild → m.NoneNear pid) : m'.errno = .echild → m'.NoneNear pid := by
  have hreap : ∀ cs : Children, m.children.Evolves cs → m.errno = .echild →
      ({ m with children := cs } : Moment ν κ σ).NoneNear pid := by
    intro cs hevolves hechild kid' hkid' hlife hgroup hselects
    obtain ⟨kid, hkid, hgrows⟩ := hevolves.origin kid' hkid'
    change kid'.group = cs.group at hgroup
    change Selects cs.group pid kid' at hselects
    rw [hgrows.group, hevolves.group] at hgroup
    rw [Selects, hgrows.pid, hgrows.group, hevolves.group] at hselects
    exact herrno hechild kid hkid (fun hreaped => hlife (hgrows.reaped hreaped)) hgroup hselects
  rcases disturb_cases h with ⟨p, _, _, rfl⟩ | ⟨reaps, _, hhandle⟩
  · exact hreap _ (.terminate _ p)
  · rcases handle_cases hhandle with ⟨p, _, _, rfl⟩ | ⟨_, hnone, rfl⟩ | ⟨_, _, rfl⟩
    · exact hreap _ (.reap _ p)
    · intro _ kid hkid hlife hgroup
      exact absurd (.inr (.inr (.inl ⟨rfl, hgroup⟩))) (hnone kid hkid hlife)
    · exact herrno

/-! Steps of a program that goes on with another. -/

def Control.bind (k : α → Prog ν κ β) : Control ν κ α → Control ν κ β
  | running prog => running (prog.bind k)
  | testing pid next => testing pid (next.bind k)
  | stopped => stopped

def Config.bind (k : α → Prog ν κ β) (c : Config ν κ σ α) : Config ν κ σ β :=
  ⟨c.control.bind k, c.moment⟩

/-- Until a program has a value, what comes after it does not matter. -/
def Control.Unfinished (control : Control ν κ α) : Prop := ∀ a, control ≠ .running (.ret a)

theorem Control.request_bind (h : control.Unfinished) (k : α → Prog ν κ β) :
    (control.bind k).request = control.request := by
  cases control with
  | running prog =>
    cases prog with
    | ret a => exact absurd rfl (h a)
    | _ => rfl
  | testing pid next => rfl
  | stopped => rfl

theorem Prog.advance_bind (h : ∀ a, prog ≠ .ret a) (k : α → Prog ν κ β) (w : World ν κ σ) :
    (prog.bind k).advance sys w =
      (prog.advance sys w).map fun done => (done.1.bind k, done.2) := by
  cases prog with
  | ret a => exact absurd rfl (h a)
  | call routine next =>
    rw [bind, advance, advance]
    cases sys.perform routine w.memory <;> rfl
  | _ => rfl

theorem Config.call_bind (h : c.control.Unfinished) (k : α → Prog ν κ β) :
    (c.bind k).call sys = (c.call sys).map (Config.bind k) := by
  obtain ⟨control, m⟩ := c
  cases control with
  | running prog =>
    have hadvance : ((prog.bind k).advance sys m.world).map
          (fun done => (⟨done.1, { m with world := done.2 }⟩ : Config ν κ σ β)) =
        ((prog.advance sys m.world).map
          (fun done => (⟨done.1, { m with world := done.2 }⟩ : Config ν κ σ α))).map
          (Config.bind k) := by
      rw [Prog.advance_bind (fun a he => h a (congrArg _ he)), Option.map_map, Option.map_map]
      rfl
    cases prog with
    | ret a => exact absurd rfl (h a)
    | fork name next =>
      change (m.fork sys name).map _ = ((m.fork sys name).map _).map _
      rw [Option.map_map]
      rfl
    | _ => exact hadvance
  | testing pid next =>
    change (if m.errno = .echild then _ else _) = Option.map _ (if m.errno = .echild then _ else _)
    split <;> rfl
  | stopped => rfl

theorem Config.wait_bind (h : c.control.Unfinished) (k : α → Prog ν κ β) (how : Wait) :
    (c.bind k).wait how = (c.wait how).map (Config.bind k) := by
  obtain ⟨control, m⟩ := c
  cases control with
  | running prog =>
    cases prog with
    | ret a => exact absurd rfl (h a)
    | waitpid pid next =>
      change (m.waitpid pid how).map _ = ((m.waitpid pid how).map _).map _
      rw [Option.map_map]
      rfl
    | reap pid next =>
      change (m.waitpid pid how).map _ = ((m.waitpid pid how).map _).map _
      rw [Option.map_map]
      congr 1
      funext done
      dsimp only [Function.comp]
      split <;> rfl
    | _ => rfl
  | testing pid next => rfl
  | stopped => rfl

theorem Config.step_bind (h : c.control.Unfinished) (k : α → Prog ν κ β) (act : Act) :
    (c.bind k).step sys act = (c.step sys act).map (Config.bind k) := by
  cases act with
  | call => exact Config.call_bind h k
  | wait how => exact Config.wait_bind h k how
  | disturb d =>
    change (c.moment.disturb d).map _ = ((c.moment.disturb d).map _).map _
    rw [Option.map_map]
    rfl

/-! Without `fork`, the steps are those of the run on its own. -/

/-- What is left of the run on its own. -/
def Config.rest (sys : System ν κ σ) (c : Config ν κ σ α) : Option (World ν κ σ × Ending α) :=
  match c.control with
  | .running prog => some (run sys prog c.moment.world)
  | .testing pid next => some (run sys next (c.moment.world.log (.reap pid)))
  | .stopped => none

theorem Moment.handle_world {reaps : Option ℕ+} (h : m.handle reaps = some m') :
    m'.world = m.world := by
  rcases handle_cases h with ⟨p, _, _, rfl⟩ | ⟨_, _, rfl⟩ | ⟨_, _, rfl⟩ <;> rfl

theorem Moment.disturb_world (h : m.disturb d = some m') : m'.world = m.world := by
  rcases disturb_cases h with ⟨p, _, _, rfl⟩ | ⟨reaps, _, hhandle⟩
  · rfl
  · exact handle_world hhandle

theorem Moment.waitpid_world {found : Bool} (h : m.waitpid pid how = some (found, m')) :
    m'.world = m.world := by
  rcases waitpid_cases h with ⟨p, _, _, _, rfl⟩ | ⟨_, _, _, rfl⟩ |
    ⟨reaps, m₁, _, _, _, hhandle, rfl⟩
  · rfl
  · rfl
  · have hworld : m₁.world = m.world := handle_world hhandle
    exact hworld

theorem Prog.run_advance {done : Control ν κ α × World ν κ σ} (h : prog.advance sys w = some done)
    (hgoes : done.1 ≠ .stopped) :
    ∃ prog', done.1 = .running prog' ∧ run sys prog w = run sys prog' done.2 := by
  cases prog with
  | call routine next =>
    rw [advance] at h
    cases hperform : sys.perform routine w.memory with
    | returned status memory =>
      rw [hperform] at h
      cases h
      refine ⟨_, rfl, ?_⟩
      rw [run, hperform]
    | _ =>
      rw [hperform] at h
      cases h
      exact absurd rfl hgoes
  | exit status =>
    cases h
    exact absurd rfl hgoes
  | crash =>
    cases h
    exact absurd rfl hgoes
  | ret a => cases h
  | fork name next => cases h
  | waitpid pid next => cases h
  | reap pid next => cases h
  | _ =>
    cases h
    exact ⟨_, rfl, rfl⟩

theorem Config.rest_step (h : c.step sys act = some c') (hgoes : c'.control ≠ .stopped)
    (hfork : ∀ name, c.control.request ≠ some (.fork name)) : c'.rest sys = c.rest sys := by
  obtain ⟨control, m⟩ := c
  cases act with
  | disturb d =>
    obtain ⟨m', hdisturb, rfl⟩ := Option.map_eq_some_iff.mp h
    rw [rest, rest, Moment.disturb_world hdisturb]
  | wait how =>
    cases control with
    | running prog =>
      cases prog with
      | waitpid pid next =>
        obtain ⟨⟨found, m'⟩, hwaitpid, rfl⟩ := Option.map_eq_some_iff.mp h
        have hworld := Moment.waitpid_world hwaitpid
        change some (run sys next (m'.world.log (.waitpid pid))) = _
        rw [hworld]
        rfl
      | reap pid next =>
        obtain ⟨⟨found, m'⟩, hwaitpid, rfl⟩ := Option.map_eq_some_iff.mp h
        have hworld := Moment.waitpid_world hwaitpid
        cases found with
        | true =>
          change some (run sys next (m'.world.log (.reap pid))) = _
          rw [hworld]
          rfl
        | false =>
          change some (run sys next (m'.world.log (.reap pid))) = _
          rw [hworld]
          rfl
      | _ => cases h
    | testing pid next => cases h
    | stopped => cases h
  | call =>
    cases control with
    | running prog =>
      have hcall : (⟨.running prog, m⟩ : Config ν κ σ α).call sys = some c' := h
      rw [call_running fun name next he => hfork name (by rw [he]; rfl)] at hcall
      obtain ⟨done, hdone, rfl⟩ := Option.map_eq_some_iff.mp hcall
      obtain ⟨prog', hcontrol, hrun⟩ := Prog.run_advance hdone hgoes
      rw [rest, hcontrol]
      exact congrArg some hrun.symm
    | testing pid next =>
      change (if m.errno = .echild then some _ else some _) = _ at h
      split at h <;> cases h <;> rfl
    | stopped => cases h

theorem Config.stopped_step (h : c.step sys act = some c') (hstopped : c.control = .stopped) :
    c'.control = .stopped := by
  obtain ⟨control, m⟩ := c
  obtain rfl : control = .stopped := hstopped
  cases act with
  | disturb d =>
    obtain ⟨m', _, rfl⟩ := Option.map_eq_some_iff.mp h
    rfl
  | wait how => cases h
  | call => cases h

/-- Whatever happens around a program that does not fork, it does what its run does. -/
theorem Config.run_of_reaches {a : α}
    (h : (⟨.running prog, m⟩ : Config ν κ σ α).Reaches sys
      (fun request _ _ => ∀ name, request ≠ some (.fork name)) ⟨.running (.ret a), m'⟩) :
    run sys prog m.world = (m'.world, .returned a) := by
  have hrest : ∀ c : Config ν κ σ α, (⟨.running prog, m⟩ : Config ν κ σ α).Reaches sys
      (fun request _ _ => ∀ name, request ≠ some (.fork name)) c → c.control ≠ .stopped →
      c.rest sys = some (run sys prog m.world) := by
    intro c hreaches
    induction hreaches with
    | refl =>
      intro _
      rfl
    | tail _ hmove ih =>
      intro hgoes
      obtain ⟨act, hfork, hstep⟩ := hmove
      rw [rest_step hstep hgoes hfork]
      exact ih fun hstopped => hgoes (stopped_step hstep hstopped)
  have hreturned := hrest _ h (by rintro ⟨⟩)
  exact (Option.some.inj hreturned).symm

end Redshell
