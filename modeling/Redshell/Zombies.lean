import Redshell.Finished
import Redshell.Foreground
import Redshell.Signals

/-! The children that the shell leaves unreaped, over lines executed one after another. -/
namespace Redshell

/-- The shell in `run`, with its children. -/
abbrev ShellProcess := Parent Redirection Routine Memory (Int × Queue)

/-- What an iteration of `run` executes. -/
def executeLine (call : Call) (memory : Memory) :
    System Redirection Routine Memory × Job (Int × Queue) :=
  (call.host.system, executeCommandsInQueue call.stack (call.queue memory.shell))

/-- The shell gets its next line, and has reaped every child that ended. -/
structure Fresh (s : ShellProcess) : Prop where
  executing : s.executing = none
  reaped : ∀ kid ∈ s.moment.children.kids, kid.life ≠ .terminated

/-- Outside the executor, with no SIGCHLD pending or just delivered, no child that ended is left. -/
def NoZombies (s : ShellProcess) : Prop :=
  s.executing = none → s.pending = false → s.handler.due = 0 →
    ∀ kid ∈ s.moment.children.kids, kid.life ≠ .terminated

variable {sys : System Redirection Routine Memory} {p : ℕ+} {l : Locals} {k count : Nat}
  {launched : Int → Int} {s : ShellProcess}

/-! What the executor waits for. -/

theorem reapLaunched_awaits (hk : k < count) (hp : launched k = p) :
    (reapLaunched launched count).Awaits sys p := by
  induction count with
  | zero => exact absurd hk (Nat.not_lt_zero k)
  | succ count ih =>
    rcases Nat.lt_succ_iff_lt_or_eq.mp hk with hlt | rfl
    · exact (ih hlt).bind _
    · exact Prog.awaits_bind fun _ _ => .inl hp

/-- After the loop the shell waits for every process in `launched`. -/
theorem finishQueue_awaits (hk : k < l.nCommands) (hp : l.launched k = p) :
    (finishQueue l).Awaits sys p := by
  rw [finishQueue]
  refine Prog.awaits_bind fun _ => ?_
  refine Prog.awaits_bind fun _ => ?_
  refine Prog.awaits_bind fun _ => ?_
  refine Prog.awaits_bind fun _ => ?_
  exact (reapLaunched_awaits hk hp).bind _

/-! Runs. -/

theorem Fresh.covered (h : Fresh s) : s.Covered := by
  left
  intro p hp
  rw [Parent.dead, Children.dead_eq_empty.mpr h.reaped] at hp
  exact absurd hp (Finset.notMem_empty p)

/-- While each child that ends is noticed. -/
theorem Fresh.noZombies {start : ShellProcess} (h : Fresh start)
    (hrun : start.Reaches executeLine Parent.Noticed s) : NoZombies s := by
  intro hprompt hpending hdue
  have hdead := (h.covered.reaches hrun).dead_eq_empty hprompt hpending hdue
  exact Children.dead_eq_empty.mp hdead

/-- When one is not, at the prompt. -/
theorem exists_not_noZombies (hprompt : s.executing = none)
    (hruns : s.moment.children.Has p .running)
    (hnot : ¬ s.Noticed (.terminate p : Move Call)) :
    ∃ s', s.Reaches executeLine (fun _ _ => True) s' ∧ ¬ NoZombies s' := by
  obtain ⟨s', hreach, hnone, hpending, hidle, hdead⟩ :=
    Parent.exists_zombie executeLine hprompt hruns hnot
  refine ⟨s', hreach, fun hzombies => hdead ?_⟩
  exact Children.dead_eq_empty.mpr (hzombies hnone hpending (by rw [hidle]; rfl))

/-- Over any lines and any order of events, while each child that ends is noticed, none is left
unreaped at the prompt; after one that ends there unnoticed, one may be. -/
theorem session_noZombies (start s : ShellProcess) (hstart : Fresh start)
    (hrun : start.Reaches executeLine Parent.Noticed s) :
    NoZombies s ∧ ∀ p, s.executing = none → s.moment.children.Has p .running →
      ¬ s.Noticed (.terminate p : Move Call) →
        ∃ s', s.Reaches executeLine (fun _ _ => True) s' ∧ ¬ NoZombies s' :=
  ⟨hstart.noZombies hrun, fun _ hprompt hruns hnot => exists_not_noZombies hprompt hruns hnot⟩

/-- The shell at its start. -/
def firstPrompt : ShellProcess where
  executing := none
  moment :=
    { world := shellWorld terminal.files terminal.memory
      children := ⟨Nat.succPNat 99, [], fun _ hkid => absurd hkid List.not_mem_nil⟩
      errno := .other }
  pending := false
  handler := .idle

theorem firstPrompt_fresh : Fresh firstPrompt := ⟨rfl, fun _ hkid => absurd hkid List.not_mem_nil⟩

/-- In `launched` there is what is no child's pid. -/
def strayStack : Stack := ⟨fun _ => 0, fun _ => 1000⟩

/-- The line `ls & ; wc &`. -/
def jobsCall : Call :=
  ⟨bytes "ls & ; wc &", by decide +kernel, splitBlanks, willing, strayStack⟩

/-- The executor forks both and returns. -/
def startJobs : List (Move Call) :=
  .start jobsCall :: List.replicate 17 .call ++
    [.wait none, .call, .call, .wait none, .call, .call, .finish]

/-- The handler reaps a child. -/
def reapOne (p : ℕ+) : List (Move Call) := [.deliver false, .reap (some p), .resume]

/-- One ends, and is reaped. -/
theorem session_noZombies_jobs :
    ∃ s, firstPrompt.play executeLine
        (startJobs ++ .terminate (Nat.succPNat 0) :: reapOne (Nat.succPNat 0)) = some s ∧
      s.moment.children.Has (Nat.succPNat 0) .reaped ∧ NoZombies s := by
  have hplay : (firstPrompt.play executeLine
      (startJobs ++ .terminate (Nat.succPNat 0) :: reapOne (Nat.succPNat 0))).map (fun s =>
        decide (s.moment.children.Has (Nat.succPNat 0) .reaped)) = some true := by decide +kernel
  have hstart : (firstPrompt.play executeLine startJobs).map (fun s => (s.dead, s.far)) =
      some (∅, ∅) := by decide +kernel
  obtain ⟨s, hs, hreaped⟩ := Option.map_eq_some_iff.mp hplay
  obtain ⟨s₁, hs₁, hdead⟩ := Option.map_eq_some_iff.mp hstart
  have hrest := hs
  rw [Parent.play_append, hs₁] at hrest
  change (s₁.step executeLine _).bind _ = _ at hrest
  obtain ⟨s₂, hstep, hs₂⟩ := Option.bind_eq_some_iff.mp hrest
  have hreach₁ : firstPrompt.Reaches executeLine Parent.Noticed s₁ := by
    refine Parent.reaches_of_play (fun move hmove s p hp => ?_) hs₁
    rw [hp] at hmove
    simp [startJobs] at hmove
  have hreach₂ : s₂.Reaches executeLine Parent.Noticed s := by
    refine Parent.reaches_of_play (fun move hmove s p hp => ?_) hs₂
    rw [hp] at hmove
    simp [reapOne] at hmove
  have hnoticed : s₁.Noticed (.terminate (Nat.succPNat 0) : Move Call) := by
    intro p _
    right
    obtain ⟨hdead, hfar⟩ := Prod.mk.inj hdead
    rw [hdead, hfar]
    exact ⟨Nat.zero_le _, Finset.disjoint_empty_right _⟩
  have hrun : firstPrompt.Reaches executeLine Parent.Noticed s :=
    hreach₁.trans (.head ⟨_, hnoticed, hstep⟩ hreach₂)
  exact ⟨s, hs, of_decide_eq_true hreaped,
    (session_noZombies firstPrompt s firstPrompt_fresh hrun).1⟩

/-- Both end before the signal is delivered, and one is left. -/
theorem session_leaves_zombie :
    ¬ ∀ start s : ShellProcess, Fresh start →
      start.Reaches executeLine (fun _ _ => True) s → NoZombies s := by
  intro hall
  have hplay : (firstPrompt.play executeLine (startJobs ++
      [.terminate (Nat.succPNat 0), .terminate (Nat.succPNat 1)] ++
        reapOne (Nat.succPNat 0))).map (fun s =>
          (s.executing.isNone, s.pending, s.handler, s.moment.children.kids)) =
      some (true, false, .idle, [⟨.forked 0, Nat.succPNat 0, Nat.succPNat 99, .reaped⟩,
        ⟨.forked 1, Nat.succPNat 1, Nat.succPNat 99, .terminated⟩]) := by decide +kernel
  obtain ⟨s, hs, hvalues⟩ := Option.map_eq_some_iff.mp hplay
  simp only [Prod.mk.injEq] at hvalues
  obtain ⟨hprompt, hpending, hidle, hkids⟩ := hvalues
  refine hall firstPrompt s firstPrompt_fresh (Parent.reaches_of_play (fun _ _ _ => trivial) hs)
    (Option.isNone_iff_eq_none.mp hprompt) hpending (by rw [hidle]; rfl)
    ⟨.forked 1, Nat.succPNat 1, Nat.succPNat 99, .terminated⟩ ?_ rfl
  rw [hkids]
  exact List.mem_cons_of_mem _ List.mem_cons_self

end Redshell
