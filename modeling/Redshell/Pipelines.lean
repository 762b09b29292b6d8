import Redshell.Accepted
import Redshell.WiringRun

/-! The streams that the commands of a queue start with. -/
namespace Redshell

/-- Every `open` and every `fork` succeeds. -/
structure Host.Succeeds (host : Host) : Prop where
  opens : ∀ name, host.opens name = true
  forks : ∀ i, (host.forks i).isSome = true

/-- The number of the first pipe of the pipeline that a command is in. -/
def pipeBase (b : Before) (q : Queue) (i : Nat) : Nat := ((wiringAt b q (i + 1)).pipes).getD 0

/-- The number of the pipe after a command. -/
def pipeId (b : Before) (q : Queue) (i : Nat) : Nat := pipeBase b q i + i

variable {b : Before} {stack : Stack} {q : Queue} {i j k n : Nat} {l : Locals} {f : JobFiles}
  {s : Wiring} {cmd : Command} {host : Host} {base : Nat} {c : Caller} {start : Start} {g : File}

/-! The numbers of the pipes. -/

theorem wiringAt_piped (hcmd : q[i]? = some cmd) (hpiped : pipedAt q i = true) :
    wiringAt b q (i + 1) = (wiringAt b q i).ready q.length i (afterPipeAt q i) cmd := by
  rw [wiringAt_succ hcmd, Wiring.step, if_pos]
  rw [pipedAt_eq hcmd] at hpiped
  simpa [or_comm] using hpiped

theorem ready_eq_some (hcmd : q[i]? = some cmd) (hpiped : pipedAt q i = true) :
    ((wiringAt b q i).ready q.length i (afterPipeAt q i) cmd).pipes = some (pipeBase b q i) := by
  obtain ⟨base, hbase⟩ := ready_pipes (b := b) (n := q.length) hcmd hpiped
  rw [pipeBase, wiringAt_piped hcmd hpiped, hbase, Option.getD_some]

/-- Within a pipeline the pipes stay. -/
theorem pipeBase_succ (hcmd : q[i + 1]? = some cmd) (hafter : afterPipeAt q (i + 1) = true) :
    pipeBase b q (i + 1) = pipeBase b q i := by
  have hpiped : pipedAt q (i + 1) = true := pipedAt_of_after hafter
  rw [pipeBase, wiringAt_piped hcmd hpiped, Wiring.ready, if_neg (by simp [hafter]), redirect_pipes,
    pipeBase]

theorem redirect_nextFile (s : Wiring) (i : Nat) (cmd : Command) :
    s.nextFile ≤ (s.redirect i cmd).nextFile := by
  rw [Wiring.redirect]
  cases cmd.redirectFromPath <;> cases cmd.redirectToPath <;>
    simp only [Wiring.redirectInput, Wiring.redirectOutput] <;> omega

/-- The last pipes are older than the next file. -/
structure Wiring.Ordered (b : Before) (s : Wiring) : Prop where
  first_le : b.first ≤ s.nextFile
  pipes_le : ∀ base, s.pipes = some base → b.first ≤ base ∧ base ≤ s.nextFile

theorem Wiring.Ordered.redirect (h : s.Ordered b) (i : Nat) (cmd : Command) :
    (s.redirect i cmd).Ordered b := by
  have hle := redirect_nextFile s i cmd
  refine ⟨h.first_le.trans hle, fun base hbase => ?_⟩
  rw [redirect_pipes] at hbase
  obtain ⟨hfirst, hnext⟩ := h.pipes_le base hbase
  exact ⟨hfirst, hnext.trans hle⟩

theorem Wiring.Ordered.newPipes (h : s.Ordered b) (n : Nat) : (s.start n).Ordered b := by
  refine ⟨Nat.le_add_right_of_le h.first_le, ?_⟩
  rintro base ⟨⟩
  exact ⟨h.first_le, Nat.le_add_right _ _⟩

theorem Wiring.Ordered.ready (h : s.Ordered b) (n i : Nat) (afterPipe : Bool) (cmd : Command) :
    (s.ready n i afterPipe cmd).Ordered b := by
  rw [Wiring.ready]
  split
  · exact (h.redirect i cmd).newPipes n
  · exact h.redirect i cmd

theorem wiringAt_ordered (b : Before) (q : Queue) (i : Nat) : (wiringAt b q i).Ordered b := by
  induction i with
  | zero =>
    refine ⟨le_rfl, ?_⟩
    rintro base ⟨⟩
  | succ i ih =>
    cases hcmd : q[i]? with
    | none =>
      rw [wiringAt, hcmd]
      exact ih
    | some cmd =>
      rw [wiringAt_succ hcmd, Wiring.step]
      have hready := ih.ready q.length i (afterPipeAt q i) cmd
      split
      · exact hready
      · exact ⟨hready.first_le, hready.pipes_le⟩

/-- Pipes are only replaced by later ones. -/
theorem wiringAt_pipes_mono (hij : i ≤ j) (hbase : (wiringAt b q i).pipes = some base) :
    ∃ base', (wiringAt b q j).pipes = some base' ∧ base ≤ base' := by
  induction j, hij using Nat.le_induction with
  | base => exact ⟨base, hbase, le_rfl⟩
  | succ j hij ih =>
    obtain ⟨base', hbase', hle⟩ := ih
    cases hcmd : q[j]? with
    | none =>
      rw [wiringAt, hcmd]
      exact ⟨base', hbase', hle⟩
    | some cmd =>
      have hnew : ∃ base'', ((wiringAt b q j).ready q.length j (afterPipeAt q j) cmd).pipes =
          some base'' ∧ base ≤ base'' := by
        rw [Wiring.ready]
        split
        · have hnext := ((wiringAt_ordered b q j).pipes_le base' hbase').2
          exact ⟨_, rfl, hle.trans (hnext.trans (redirect_nextFile _ _ _))⟩
        · rw [redirect_pipes]
          exact ⟨base', hbase', hle⟩
      rw [wiringAt_succ hcmd, Wiring.step]
      split
      · exact hnew
      · exact hnew

theorem pipeId_lt (hcmd : q[i]? = some cmd) (hmask : cmd.connectionMask = .pipe) (hij : i < j) :
    pipeId b q i < pipeId b q j := by
  have hpiped : pipedAt q i = true := pipedAt_of_pipe hcmd hmask
  have hbase := ready_eq_some (b := b) hcmd hpiped
  rw [← wiringAt_piped hcmd hpiped] at hbase
  obtain ⟨base', hbase', hle⟩ := wiringAt_pipes_mono (j := j + 1) (by omega) hbase
  have hj : pipeBase b q j = base' := by rw [pipeBase, hbase', Option.getD_some]
  rw [pipeId, pipeId, hj]
  omega

theorem first_le_pipeBase (hcmd : q[i]? = some cmd) (hpiped : pipedAt q i = true) :
    b.first ≤ pipeBase b q i := by
  have hbase := ready_eq_some (b := b) hcmd hpiped
  exact (((wiringAt_ordered b q i).ready q.length i _ cmd).pipes_le _ hbase).1

/-! The streams of the child of a turn. -/

namespace AtTurn

theorem ready_index (h : AtTurn b stack q i l f) (cmd : Command) : (l.ready f cmd).1.i = i := by
  rw [ready_frame]
  exact h.index

theorem ready_count (h : AtTurn b stack q i l f) (cmd : Command) :
    (l.ready f cmd).1.nCommands = q.length := by
  rw [ready_frame]
  exact h.count

theorem childStart_piped (h : AtTurn b stack q i l f) (hcmd : q[i]? = some cmd)
    (hpiped : pipedAt q i = true) :
    (childStart cmd (l, f)).fds = ((l.ready f cmd).1.connected cmd (l.ready f cmd).2).fds :=
  if_pos ((h.piped_eq hcmd).trans hpiped)

theorem childStart_single (h : AtTurn b stack q i l f) (hcmd : q[i]? = some cmd)
    (hsingle : pipedAt q i = false) : (childStart cmd (l, f)).fds = (l.prepared f cmd).2.fds :=
  if_neg (by rw [h.piped_eq hcmd, hsingle]; exact Bool.false_ne_true)

theorem child_output (h : AtTurn b stack q i l f) (hcmd : q[i]? = some cmd)
    (hmask : cmd.connectionMask = .pipe) (hi : i + 1 < q.length) :
    (childStart cmd (l, f)).fds.get 1 = some (writeEnd (pipeId b q i)) := by
  have hpiped : pipedAt q i = true := pipedAt_of_pipe hcmd hmask
  rw [h.childStart_piped hcmd hpiped, (h.ready hcmd hpiped).connected_output
    (ready_eq_some hcmd hpiped) hmask (by rwa [h.ready_index, h.ready_count]), h.ready_index]
  rfl

/-- The input of a piped command, with the pipes counted from its own pipeline. -/
theorem child_input (h : AtTurn b stack q i l f) (hcmd : q[i]? = some cmd)
    (hpiped : pipedAt q i = true) (hi : 0 < i) :
    (childStart cmd (l, f)).fds.get 0 = some (readEnd (pipeBase b q i + (i - 1))) := by
  have hready := h.ready hcmd hpiped
  have hbase := ready_eq_some (b := b) hcmd hpiped
  have hlt := lt_of_turn hcmd
  have hread := ((hready.pipes _ hbase).2 (i - 1) (by rw [h.ready_count]; omega)).1
  rw [h.childStart_piped hcmd hpiped]
  apply hready.connected_input hbase (by rw [h.ready_count]; omega)
  rw [h.ready_index]
  have hcast : 2 * ((i : Int) - 1) = 2 * ((i - 1 : Nat) : Int) := by omega
  rw [hcast]
  exact hread

/-- The input of a command that is first in the queue and piped is out of the array's bounds. -/
theorem child_stray (h : AtTurn b stack q 0 l f) (hcmd : q[0]? = some cmd)
    (hpiped : pipedAt q 0 = true) (hlen : 1 < q.length)
    (haway : (l.ready f cmd).2.fds.Away ((l.ready f cmd).1.pipes (-2)) g) :
    (childStart cmd (l, f)).fds.get 0 = some g := by
  rw [h.childStart_piped hcmd hpiped]
  apply (h.ready hcmd hpiped).connected_input (ready_eq_some hcmd hpiped)
    (by rwa [h.ready_count])
  rw [h.ready_index]
  exact haway

end AtTurn

/-! The commands that start. -/

theorem Host.Succeeds.failsAt (h : host.Succeeds) (i : Nat) (cmd : Command) :
    host.failsAt i cmd = false := by
  have hfails : ∀ output path, host.fails i output path = false := by
    intro output path
    cases path <;> simp [Host.fails, h.opens]
  rw [Host.failsAt, hfails, hfails, Bool.false_or]

theorem Host.Succeeds.child (h : host.Succeeds) (i : Nat) (start : Start) :
    host.child i start = [start] := if_pos (h.forks i)

theorem mem_startsAt (h : host.Succeeds) {t : Locals × JobFiles} :
    start ∈ (List.range k).flatMap (startsAt host q t) ↔
      ∃ i cmd, i < k ∧ q[i]? = some cmd ∧ start = childStart cmd (turnAt host q t i) := by
  rw [List.mem_flatMap]
  constructor
  · rintro ⟨i, hi, hstart⟩
    cases hcmd : q[i]? with
    | none => simp [startsAt, hcmd] at hstart
    | some cmd =>
      rw [startsAt_eq hcmd, h.child, List.mem_singleton] at hstart
      exact ⟨i, cmd, List.mem_range.mp hi, hcmd, hstart⟩
  · rintro ⟨i, cmd, hi, hcmd, rfl⟩
    refine ⟨i, List.mem_range.mpr hi, ?_⟩
    rw [startsAt_eq hcmd, h.child]
    exact List.mem_singleton_self _

/-- A command that has another after it does not run in the shell. -/
theorem runsInShell_drop (hi : i + 1 < q.length) (cmd : Command) :
    runsInShell cmd (q.drop (i + 1)) = some false := by
  refine if_neg fun h => ?_
  have hlen := h.2
  rw [List.length_drop] at hlen
  omega

theorem Caller.starts_world (c : Caller) : Redshell.starts c.world = [] := rfl

/-- What a caller starts: the children of the turns, and perhaps the last command. -/
theorem Caller.mem_starts (c : Caller) (stack : Stack) (h : host.Succeeds) :
    start ∈ c.starts host stack q → ∃ i cmd, q[i]? = some cmd ∧
      (start = childStart cmd (turnAt host q (entry stack q c.files) i) ∨
        pipedAt q i = false ∧
        start = ⟨none, i, cmd, ((turnAt host q (entry stack q c.files) i).1.prepared
          (turnAt host q (entry stack q c.files) i).2 cmd).2.fds⟩) := by
  intro hmem
  have hchild : ∀ k, start ∈ (List.range k).flatMap (startsAt host q (entry stack q c.files)) →
      ∃ i cmd, q[i]? = some cmd ∧
        (start = childStart cmd (turnAt host q (entry stack q c.files) i) ∨
          pipedAt q i = false ∧
          start = ⟨none, i, cmd, ((turnAt host q (entry stack q c.files) i).1.prepared
            (turnAt host q (entry stack q c.files) i).2 cmd).2.fds⟩) := by
    intro k hk
    obtain ⟨i, cmd, _, hcmd, hstart⟩ := (mem_startsAt h).mp hk
    exact ⟨i, cmd, hcmd, .inl hstart⟩
  by_cases hq : q = []
  · subst hq
    cases hmem
  rw [Caller.starts] at hmem
  cases course host q with
  | failed k cmd hcont hcmd hfail => simp [h.failsAt] at hfail
  | inShell k cmd hcont hcmd hok hsingle hshell =>
    obtain ⟨w₁, w', hrun, hmoved, hran⟩ :=
      execute_inShell stack (w := c.world) rfl hcont hcmd hok hsingle hshell
    rw [hrun, hran.starts, hmoved.starts, c.starts_world, List.nil_append] at hmem
    rcases List.mem_append.mp hmem with hmem | hmem
    · exact hchild k hmem
    · exact ⟨k, cmd, hcmd, .inr ⟨hsingle, List.mem_singleton.mp hmem⟩⟩
  | nameless k cmd hcont hcmd hok hsingle hshell =>
    obtain ⟨w', hrun, hmoved⟩ :=
      execute_nameless stack (w := c.world) rfl hcont hcmd hok hsingle hshell
    rw [hrun, hmoved.starts, c.starts_world, List.nil_append] at hmem
    exact hchild k hmem
  | finished hcont =>
    obtain ⟨w', hrun, hmoved⟩ := execute_finished stack hq (w := c.world) rfl hcont
    rw [hrun, hmoved.starts, c.starts_world, List.nil_append] at hmem
    exact hchild q.length hmem

/-- Every command of a pipeline, and every one but the last, gets its child. -/
theorem Caller.childStart_mem (c : Caller) (stack : Stack) (h : host.Succeeds)
    (hcmd : q[i]? = some cmd) (hi : pipedAt q i = true ∨ i + 1 < q.length) :
    childStart cmd (turnAt host q (entry stack q c.files) i) ∈ c.starts host stack q := by
  have hlt := lt_of_turn hcmd
  have hq : q ≠ [] := List.ne_nil_of_length_pos (by omega)
  have hchild : ∀ k, i < k → childStart cmd (turnAt host q (entry stack q c.files) i) ∈
      (List.range k).flatMap (startsAt host q (entry stack q c.files)) := fun k hk =>
    (mem_startsAt h).mpr ⟨i, cmd, hk, hcmd, rfl⟩
  have hstop : ∀ {k : Nat} {last : Command} {b : Option Bool}, q[k]? = some last →
      pipedAt q k = false → runsInShell last (q.drop (k + 1)) = b → b ≠ some false → i < k := by
    rintro k last b hlast hsingle hshell hb
    have hk := lt_of_turn hlast
    by_contra hge
    have hik : k + 1 = q.length := by
      by_contra hne
      rw [runsInShell_drop (by omega)] at hshell
      exact hb hshell.symm
    obtain rfl : i = k := by omega
    rcases hi with hpiped | hmore
    · rw [hsingle] at hpiped
      cases hpiped
    · omega
  rw [Caller.starts]
  cases course host q with
  | failed k cmd hcont hcmd hfail => simp [h.failsAt] at hfail
  | inShell k cmd hcont hcmd hok hsingle hshell =>
    obtain ⟨w₁, w', hrun, hmoved, hran⟩ :=
      execute_inShell stack (w := c.world) rfl hcont hcmd hok hsingle hshell
    rw [hrun, hran.starts, hmoved.starts]
    exact List.mem_append_left _ (List.mem_append_right _
      (hchild k (hstop hcmd hsingle hshell (by simp))))
  | nameless k cmd hcont hcmd hok hsingle hshell =>
    obtain ⟨w', hrun, hmoved⟩ :=
      execute_nameless stack (w := c.world) rfl hcont hcmd hok hsingle hshell
    rw [hrun, hmoved.starts]
    exact List.mem_append_right _ (hchild k (hstop hcmd hsingle hshell (by simp)))
  | finished hcont =>
    obtain ⟨w', hrun, hmoved⟩ := execute_finished stack hq (w := c.world) rfl hcont
    rw [hrun, hmoved.starts]
    exact List.mem_append_right _ (hchild q.length hlt)

theorem childStart_index (stack : Stack) (f : JobFiles) (hcmd : q[i]? = some cmd) :
    (childStart cmd (turnAt host q (entry stack q f) i)).index = i :=
  (entry_counted host stack f (lt_of_turn hcmd).le).index

/-- What is started at the index of a piped command is the child of its turn. -/
theorem Caller.start_piped (c : Caller) (h : host.Succeeds)
    (hstart : start ∈ c.starts host stack q) (hindex : start.index = i) (hcmd : q[i]? = some cmd)
    (hpiped : pipedAt q i = true) :
    start = childStart cmd (turnAt host q (entry stack q c.files) i) := by
  obtain ⟨j, cmd', hcmd', hchild | ⟨hsingle, hlast⟩⟩ := c.mem_starts stack h hstart
  · obtain rfl : j = i := by
      rw [← hindex, hchild, childStart_index stack c.files hcmd']
    cases hcmd.symm.trans hcmd'
    exact hchild
  · obtain rfl : j = i := by
      rw [← hindex, hlast]
    rw [hpiped] at hsingle
    cases hsingle

/-- A shell with its three streams open. -/
def terminal : Caller where
  files := ⟨[some ⟨0, .inherited⟩, some ⟨1, .inherited⟩, some ⟨2, .inherited⟩], 3⟩
  memory := ⟨⟨bytes "/", fun _ => none, Dictionary.empty.toAliases⟩, 0⟩
  input := ⟨0, .inherited⟩
  output := ⟨1, .inherited⟩
  stdin := rfl
  stdout := rfl
  old := by
    intro fd g h
    have hfd := Table.nonneg_of_get h
    obtain ⟨n, rfl⟩ := Int.eq_ofNat_of_zero_le hfd
    rw [Table.get_natCast] at h
    match n with
    | 0 => cases h; decide
    | 1 => cases h; decide
    | 2 => cases h; decide
    | n + 3 => cases h

/-- Everything succeeds; the pids are 1, 2, 3, in the order of the commands. -/
def willing : Host where
  opens := fun _ => true
  forks := fun i => some ⟨i + 1, Nat.succ_pos i⟩
  directories := ⟨fun _ path => some path, fun dir _ => some dir⟩
  execvp := fun _ => none

theorem willing_succeeds : willing.Succeeds := ⟨fun _ => rfl, fun _ => rfl⟩

/-- Arrays whose elements were never set and are all zero. -/
def zeroStack : Stack := ⟨fun _ => 0, fun _ => 0⟩

/-! The pipes between neighbours. -/

/-- A piped command starts with its output in the pipe after it. -/
theorem Caller.start_output (c : Caller) (h : host.Succeeds)
    (hstart : start ∈ c.starts host stack q) (hindex : start.index = i) (hcmd : q[i]? = some cmd)
    (hmask : cmd.connectionMask = .pipe) (hnext : i + 1 < q.length) :
    start.fds.get 1 = some (writeEnd (pipeId c.before q i)) := by
  have hpiped : pipedAt q i = true := pipedAt_of_pipe hcmd hmask
  rw [c.start_piped h hstart hindex hcmd hpiped]
  exact (c.turnAt_atTurn host stack (by omega)).child_output hcmd hmask hnext

/-- The command after a pipe starts with its input in it. -/
theorem Caller.start_input (c : Caller) (h : host.Succeeds) {next : Command}
    (hstart : start ∈ c.starts host stack q) (hindex : start.index = i + 1)
    (hcmd : q[i]? = some cmd) (hmask : cmd.connectionMask = .pipe)
    (hnext : q[i + 1]? = some next) :
    start.fds.get 0 = some (readEnd (pipeId c.before q i)) := by
  have hafter : afterPipeAt q (i + 1) = true := afterPipeAt_of_pipe hcmd hmask
  have hpiped : pipedAt q (i + 1) = true := pipedAt_of_after hafter
  have hlt := lt_of_turn hnext
  rw [c.start_piped h hstart hindex hnext hpiped,
    (c.turnAt_atTurn host stack hlt.le).child_input hnext hpiped (Nat.succ_pos i),
    pipeBase_succ hnext hafter]
  rfl

theorem pipeId_ne {cmd' : Command} (hne : i ≠ j) (hcmd : q[i]? = some cmd)
    (hmask : cmd.connectionMask = .pipe) (hcmd' : q[j]? = some cmd')
    (hmask' : cmd'.connectionMask = .pipe) : pipeId b q i ≠ pipeId b q j := by
  rcases Nat.lt_or_gt_of_ne hne with hlt | hlt
  · exact (pipeId_lt hcmd hmask hlt).ne
  · exact (pipeId_lt hcmd' hmask' hlt).ne'

/-- Neighbours in a pipeline start with the two ends of one pipe, and no two pairs share one. -/
theorem execute_neighbours (wordexp : Wordexp) (st : Aliases) (created : Nat) (line : CString)
    (hline : ∀ c ∈ line, c ≠ 0) (hmain : line ∈ mainRule) (r : Parse)
    (hparse : parseInput wordexp ⟨st, [], created⟩ line = .ok r)
    (hok : ∀ call ∈ r.session.calls, call.glob = true → call.result ≠ none)
    (host : Host) (hhost : host.Succeeds) (stack : Stack) (c : Caller) :
    ∃ pipe : Nat → Nat,
      (∀ i j cmd cmd', i ≠ j → r.queue[i]? = some cmd → cmd.connectionMask = .pipe →
        r.queue[j]? = some cmd' → cmd'.connectionMask = .pipe → pipe i ≠ pipe j) ∧
      ∀ i cmd, r.queue[i]? = some cmd → cmd.connectionMask = .pipe →
        ∃ next, r.queue[i + 1]? = some next ∧
          (∃ a ∈ c.starts host stack r.queue, a.index = i) ∧
          (∃ b ∈ c.starts host stack r.queue, b.index = i + 1) ∧
          (cmd.redirectToPath = none → next.redirectFromPath = none →
            ∀ a ∈ c.starts host stack r.queue, ∀ b ∈ c.starts host stack r.queue,
              a.index = i → b.index = i + 1 →
              a.fds.get 1 = some ⟨pipe i, .pipeEnd true⟩ ∧
              b.fds.get 0 = some ⟨pipe i, .pipeEnd false⟩) := by
  have hended := parseInput_ended hline hmain hparse hok
  refine ⟨pipeId c.before r.queue, fun i j cmd cmd' hne hcmd hmask hcmd' hmask' =>
    pipeId_ne hne hcmd hmask hcmd' hmask', fun i cmd hcmd hmask => ?_⟩
  have hlt := hended i cmd hcmd hmask
  have hnext : r.queue[i + 1]? = some r.queue[i + 1] := List.getElem?_eq_getElem hlt
  have hafter : afterPipeAt r.queue (i + 1) = true := afterPipeAt_of_pipe hcmd hmask
  have hpiped : pipedAt r.queue (i + 1) = true := pipedAt_of_after hafter
  refine ⟨r.queue[i + 1], hnext, ?_, ?_, ?_⟩
  · exact ⟨_, c.childStart_mem stack hhost hcmd (.inr hlt), childStart_index stack c.files hcmd⟩
  · exact ⟨_, c.childStart_mem stack hhost hnext (.inl hpiped),
      childStart_index stack c.files hnext⟩
  · intro _ _ a ha b hb hi hj
    exact ⟨c.start_output hhost ha hi hcmd hmask hlt, c.start_input hhost hb hj hcmd hmask hnext⟩

/-- Two pipelines in one line. -/
theorem execute_neighbours_ls :
    ∃ r, parseInput (fun _ text => some [text]) ⟨Dictionary.empty.toAliases, [], 0⟩
        (bytes "ls | wc; ls | wc") = .ok r ∧
      ∃ pipe : Nat → Nat,
        (∀ i j cmd cmd', i ≠ j → r.queue[i]? = some cmd → cmd.connectionMask = .pipe →
          r.queue[j]? = some cmd' → cmd'.connectionMask = .pipe → pipe i ≠ pipe j) ∧
        ∀ i cmd, r.queue[i]? = some cmd → cmd.connectionMask = .pipe →
          ∃ next, r.queue[i + 1]? = some next ∧
            (∃ a ∈ terminal.starts willing zeroStack r.queue, a.index = i) ∧
            (∃ b ∈ terminal.starts willing zeroStack r.queue, b.index = i + 1) ∧
            (cmd.redirectToPath = none → next.redirectFromPath = none →
              ∀ a ∈ terminal.starts willing zeroStack r.queue,
              ∀ b ∈ terminal.starts willing zeroStack r.queue,
                a.index = i → b.index = i + 1 →
                a.fds.get 1 = some ⟨pipe i, .pipeEnd true⟩ ∧
                b.fds.get 0 = some ⟨pipe i, .pipeEnd false⟩) := by
  obtain ⟨r, hparse, hok⟩ := exists_parse (fun _ text => some [text])
    ⟨Dictionary.empty.toAliases, [], 0⟩ (bytes "ls | wc; ls | wc") (by decide +kernel)
  exact ⟨r, hparse, execute_neighbours _ _ _ _ (by decide +kernel) (by decide +kernel) r hparse hok
    willing willing_succeeds zeroStack terminal⟩

end Redshell
