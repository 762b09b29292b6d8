import Redshell.Turns
import Redshell.Wiring

/-! The wiring at every turn of the executor's loop, and the streams of the children. -/
namespace Redshell

/-- The wiring at the turn of an index, while no `open` fails. -/
def wiringAt (b : Before) (q : Queue) : Nat → Wiring
  | 0 => ⟨b.input, b.output, b.first, none⟩
  | i + 1 =>
    match q[i]? with
    | none => wiringAt b q i
    | some cmd => (wiringAt b q i).step b q.length i (afterPipeAt q i) cmd

/-- The loop is at an index of the queue. -/
structure AtTurn (b : Before) (stack : Stack) (q : Queue) (i : Nat) (l : Locals)
    (f : JobFiles) : Prop where
  index : l.i = i
  count : l.nCommands = q.length
  afterPipe : l.afterPipe = afterPipeAt q i
  wired : Wired b l f (wiringAt b q i)
  fdIn : Opened b.first false f.fds l.fdIn
  fdOut : Opened b.first true f.fds l.fdOut
  garbage : (wiringAt b q i).pipes = none → l.pipes = stack.pipes

variable {b : Before} {stack : Stack} {q : Queue} {i n : Nat} {l : Locals} {f : JobFiles}
  {s : Wiring} {cmd : Command} {host : Host} {base : Nat} {w : JobWorld} {g : File} {fd : Int}

theorem redirect_pipes (s : Wiring) (i : Nat) (cmd : Command) :
    (s.redirect i cmd).pipes = s.pipes := by
  rw [Wiring.redirect]
  cases cmd.redirectFromPath <;> cases cmd.redirectToPath <;> rfl

theorem wiringAt_succ (hcmd : q[i]? = some cmd) :
    wiringAt b q (i + 1) = (wiringAt b q i).step b q.length i (afterPipeAt q i) cmd := by
  rw [wiringAt, hcmd]

/-- Inside a pipeline the pipes have been made. -/
theorem pipes_of_afterPipe (h : afterPipeAt q i = true) :
    ∃ base, (wiringAt b q i).pipes = some base := by
  induction i with
  | zero => cases h
  | succ i ih =>
    cases hcmd : q[i]? with
    | none => simp [afterPipeAt, hcmd] at h
    | some cmd =>
      have hmask : cmd.connectionMask = .pipe := by simpa [afterPipeAt, hcmd] using h
      rw [wiringAt_succ hcmd, Wiring.step, if_pos (.inl hmask), Wiring.ready]
      cases hafter : afterPipeAt q i with
      | true => simpa [redirect_pipes] using ih hafter
      | false => simp [hmask, Wiring.start]

/-- When a piped command's child is made, the pipes have been. -/
theorem ready_pipes (hcmd : q[i]? = some cmd) (hpiped : pipedAt q i = true) :
    ∃ base, ((wiringAt b q i).ready n i (afterPipeAt q i) cmd).pipes = some base := by
  rw [Wiring.ready]
  split
  · exact ⟨_, rfl⟩
  · next hnot =>
    rw [redirect_pipes]
    apply pipes_of_afterPipe
    rw [pipedAt_eq hcmd] at hpiped
    by_contra hafter
    rw [Bool.not_eq_true] at hafter
    exact hnot ⟨by simpa [hafter] using hpiped, hafter⟩

namespace AtTurn

theorem piped_eq (h : AtTurn b stack q i l f) (hcmd : q[i]? = some cmd) :
    l.piped cmd = pipedAt q i := by
  rw [Locals.piped, h.afterPipe, pipedAt_eq hcmd]

theorem ready (h : AtTurn b stack q i l f) (hcmd : q[i]? = some cmd) (hpiped : pipedAt q i = true) :
    Wired b (l.ready f cmd).1 (l.ready f cmd).2
      ((wiringAt b q i).ready q.length i (afterPipeAt q i) cmd) := by
  have hready := h.wired.ready h.fdIn h.fdOut ((h.piped_eq hcmd).trans hpiped)
  rwa [h.index, h.count, h.afterPipe] at hready

theorem prepared (h : AtTurn b stack q i l f) (cmd : Command) :
    Wired b (l.prepared f cmd).1 (l.prepared f cmd).2 ((wiringAt b q i).redirect i cmd) := by
  have hprepared := (h.wired.prepared h.fdIn h.fdOut cmd).1
  rwa [h.index] at hprepared

theorem next_piped (h : AtTurn b stack q i l f) (hcmd : q[i]? = some cmd)
    (hpiped : pipedAt q i = true) (host : Host) :
    AtTurn b stack q (i + 1) ((l.ready f cmd).1.afterPiped host cmd) (l.ready f cmd).2 := by
  have hready := h.ready hcmd hpiped
  have hstep : wiringAt b q (i + 1) =
      (wiringAt b q i).ready q.length i (afterPipeAt q i) cmd := by
    rw [wiringAt_succ hcmd, Wiring.step, if_pos]
    rw [pipedAt_eq hcmd] at hpiped
    simpa [or_comm] using hpiped
  obtain ⟨_, hin, hout⟩ := h.wired.prepared h.fdIn h.fdOut cmd
  have hfd : ∀ output fd, Opened b.first output (l.prepared f cmd).2.fds fd →
      Opened b.first output (l.ready f cmd).2.fds fd := by
    intro output fd ho
    rw [Locals.ready, Locals.started]
    split
    · exact ho
    · exact ho.withPipes _ _
  obtain ⟨base, hbase⟩ := ready_pipes (b := b) (n := q.length) hcmd hpiped
  refine ⟨?_, ?_, ?_, ?_, ?_, ?_, ?_⟩
  · rw [ready_frame]
    exact congrArg (· + 1) h.index
  · rw [ready_frame]
    exact h.count
  · rw [afterPipeAt_succ hcmd]
    rfl
  · rw [hstep]
    exact hready.congr rfl rfl rfl rfl
  · rw [ready_frame]
    exact hfd _ _ hin
  · rw [ready_frame]
    exact hfd _ _ hout
  · rw [hstep, hbase]
    simp

theorem next_single (h : AtTurn b stack q i l f) (hcmd : q[i]? = some cmd)
    (hpiped : pipedAt q i = false) (host : Host) :
    AtTurn b stack q (i + 1) ((l.prepared f cmd).1.afterSingle host cmd)
      (l.restored (l.prepared f cmd).2) := by
  obtain ⟨hafter, hmask'⟩ := unpiped_of_false hcmd hpiped
  have hstep : wiringAt b q (i + 1) = ((wiringAt b q i).redirect i cmd).restore b := by
    rw [wiringAt_succ hcmd, Wiring.step, if_neg (by simp [hmask', hafter]), Wiring.ready,
      if_neg (by simp [hmask'])]
  obtain ⟨_, hin, hout⟩ := h.wired.prepared h.fdIn h.fdOut cmd
  refine ⟨congrArg (· + 1) h.index, h.count, ?_, ?_, ?_, ?_, ?_⟩
  · rw [afterPipeAt_succ hcmd]
    rfl
  · rw [hstep]
    exact (h.prepared cmd).restored.congr rfl rfl rfl rfl
  · exact (hin.dup2 _ (.inl rfl)).dup2 _ (.inr rfl)
  · exact (hout.dup2 _ (.inl rfl)).dup2 _ (.inr rfl)
  · rw [hstep]
    intro hnone
    exact h.garbage (by simpa [Wiring.restore, redirect_pipes] using hnone)

end AtTurn

theorem turnAt_atTurn {t : Locals × JobFiles} {k : Nat} (host : Host)
    (h : AtTurn b stack q 0 t.1 t.2) (hk : k ≤ q.length) :
    AtTurn b stack q k (turnAt host q t k).1 (turnAt host q t k).2 := by
  induction k with
  | zero => exact h
  | succ k ih =>
    have hcmd : q[k]? = some q[k] := List.getElem?_eq_getElem (by omega)
    have hk' := ih (by omega)
    rw [turnAt_succ hcmd, turn]
    cases hp : pipedAt q k with
    | true =>
      rw [if_pos ((hk'.piped_eq hcmd).trans hp)]
      exact hk'.next_piped hcmd hp host
    | false =>
      rw [if_neg (by rw [hk'.piped_eq hcmd, hp]; exact Bool.false_ne_true)]
      exact hk'.next_single hcmd hp host

/-! The streams of a child. -/

theorem get_closeAll_of_ne {pipes : Int → Int} {count : Nat}
    (h : ∀ j : Nat, j < count → pipes j ≠ fd) :
    (f.closeAll pipes count).fds.get fd = f.fds.get fd := by
  induction count with
  | zero => rfl
  | succ count ih =>
    have hne : fd ≠ pipes count := (h count (Nat.lt_succ_self count)).symm
    exact (Table.get_close_of_ne hne).trans (ih fun j hj => h j (Nat.lt_succ_of_lt hj))

theorem Away.connectedFirst (h : f.fds.Away fd g) (l : Locals) :
    (l.connectedFirst f).fds.Away fd g := by
  rw [Locals.connectedFirst]
  split
  · exact h.dup2 _ (.inr rfl)
  · exact h

namespace Wired

/-- Every element of the array refers to an end of one of the last pipes. -/
theorem pipes_away (h : Wired b l f s) (hbase : s.pipes = some base) {j : Nat}
    (hj : j < 2 * (l.nCommands - 1)) :
    ∃ g, base ≤ g.id ∧ f.fds.Away (l.pipes j) g := by
  obtain ⟨hread, hwrite⟩ := (h.pipes base hbase).2 (j / 2) (by omega)
  rcases Nat.mod_two_eq_zero_or_one j with hmod | hmod
  · exact ⟨_, Nat.le_add_right _ _, (show (2 * (j / 2 : Nat) : Int) = j by omega) ▸ hread⟩
  · exact ⟨_, Nat.le_add_right _ _, (show (2 * (j / 2 : Nat) + 1 : Int) = j by omega) ▸ hwrite⟩

theorem get_closeAll (h : Wired b l f s) (hbase : s.pipes = some base) {f' : JobFiles}
    (hfd : fd = 0 ∨ fd = 1) :
    (f'.closeAll l.pipes (2 * (l.nCommands - 1))).fds.get fd = f'.fds.get fd := by
  apply get_closeAll_of_ne
  intro j hj
  obtain ⟨g, _, haway⟩ := h.pipes_away hbase hj
  rcases hfd with rfl | rfl
  · exact haway.ne_zero
  · exact haway.ne_one

/-- The output of a child whose output is piped. -/
theorem connected_output (h : Wired b l f s) (hbase : s.pipes = some base)
    (hmask : cmd.connectionMask = .pipe) (hi : l.i + 1 < l.nCommands) :
    (l.connected cmd f).fds.get 1 = some (writeEnd (base + l.i)) := by
  obtain ⟨_, hwrite⟩ := (h.pipes base hbase).2 l.i (by omega)
  rw [Locals.connected, h.get_closeAll hbase (.inr rfl), Locals.connectedRest,
    if_neg (not_not.mpr hmask)]
  have haway := (Away.connectedFirst hwrite l).dup2 (l.pipes (2 * ((l.i : Int) - 1))) (.inl rfl)
  exact (Table.get_dup2 haway.refers 1 1).trans (if_pos rfl)

/-- The input of a piped command is what the element before its own number refers to. -/
theorem connected_input (h : Wired b l f s) (hbase : s.pipes = some base)
    (hn : 1 < l.nCommands) (hread : f.fds.Away (l.pipes (2 * ((l.i : Int) - 1))) g) :
    (l.connected cmd f).fds.get 0 = some g := by
  have haway := Away.connectedFirst hread l
  rw [Locals.connected, h.get_closeAll hbase (.inl rfl), Locals.connectedRest]
  by_cases hmask : cmd.connectionMask ≠ .pipe
  · rw [if_pos hmask, if_pos hn]
    exact (Table.get_dup2 haway.refers 0 0).trans (if_pos rfl)
  · rw [if_neg hmask]
    refine (Table.get_dup2_of_ne (by omega) _).trans ?_
    exact (Table.get_dup2 haway.refers 0 0).trans (if_pos rfl)

end Wired

/-- The shell when it calls the executor, with both streams open. -/
structure Caller where
  files : JobFiles
  memory : Memory
  input : File
  output : File
  stdin : files.fds.get 0 = some input
  stdout : files.fds.get 1 = some output
  old : ∀ fd g, files.fds.get fd = some g → g.id < files.nextFile

namespace Caller

def world (c : Caller) : JobWorld where
  files := c.files
  memory := c.memory
  process := none
  trace := []

theorem world_files (c : Caller) : c.world.files = c.files := rfl

def before (c : Caller) : Before where
  input := c.input
  output := c.output
  first := c.files.nextFile
  input_old := c.old 0 c.input c.stdin
  output_old := c.old 1 c.output c.stdout

/-- What is started when the caller executes a queue. -/
def starts (c : Caller) (host : Host) (stack : Stack) (q : Queue) : List Start :=
  Redshell.starts (run host.system (executeCommandsInQueue stack q) c.world).1

theorem entry_atTurn (c : Caller) (stack : Stack) (q : Queue) :
    AtTurn c.before stack q 0 (entry stack q c.files).1 (entry stack q c.files).2 := by
  have hin := Table.Away.of_alloc c.stdin c.stdout c.input
  have hstdin := Table.get_alloc_of_open (g := c.input) c.stdin
  have hstdout := Table.get_alloc_of_open (g := c.input) c.stdout
  have hout := Table.Away.of_alloc hstdin hstdout c.output
  have hfiles : (entry stack q c.files).2.fds =
      ((c.files.fds.alloc c.input).2.alloc c.output).2 := by
    simp [entry, Files.dup, Table.dup, c.stdin, hstdout]
  have hcopy : (entry stack q c.files).1.stdinCopy = (c.files.fds.alloc c.input).1 := by
    simp [entry, Files.dup, Table.dup, c.stdin]
  have hcopy' : (entry stack q c.files).1.stdoutCopy =
      ((c.files.fds.alloc c.input).2.alloc c.output).1 := by
    simp [entry, Files.dup, Table.dup, c.stdin, hstdout]
  refine ⟨rfl, rfl, rfl, ⟨?_, ?_, ?_, ?_, rfl, le_rfl, ?_⟩, .inl rfl, .inl rfl, fun _ => rfl⟩
  · rw [hfiles]
    exact Table.get_alloc_of_open hstdin
  · rw [hfiles]
    exact Table.get_alloc_of_open hstdout
  · rw [hfiles, hcopy]
    exact hin.alloc c.output
  · rw [hfiles, hcopy']
    exact hout
  · rintro base ⟨⟩

theorem turnAt_atTurn {k : Nat} (c : Caller) (host : Host) (stack : Stack) (hk : k ≤ q.length) :
    AtTurn c.before stack q k (turnAt host q (entry stack q c.files) k).1
      (turnAt host q (entry stack q c.files) k).2 :=
  Redshell.turnAt_atTurn host (c.entry_atTurn stack q) hk

end Caller

end Redshell
