import Redshell.Released

/-! What a line does to the shell, told without descriptors, pipes and processes; the executor's
system calls do just that. -/
namespace Redshell

/-- What a queue leaves of the shell, the commands started on the way, each with its index and with
the child that starts it, and how it ends. -/
structure Effect where
  shell : Shell
  started : List (Option Nat × Nat × Command)
  ending : Ending Unit

/-- The start of a command in its child, if there is one. -/
def Host.forked (host : Host) (i : Nat) (cmd : Command) : List (Option Nat × Nat × Command) :=
  if (host.forks i).isSome then [(some i, i, cmd)] else []

/-- How a line ends with a command that the shell executes itself. -/
def Executed.finish : Executed → Ending Unit
  | .returned _ _ _ _ => .returned ()
  | .exited _ => .exited
  | .crashed => .crashed
  | .replaced => .replaced

/-- The commands of a queue from an index on, the last one before it followed by `|` or not. A
redirection that does not open ends the line; a command gets a child, unless it is a builtin in the
foreground at the end and no pipe leads to it. -/
def carryOut (host : Host) (shell : Shell) : Nat → Bool → Queue → Effect
  | _, _, [] => ⟨shell, [], .returned ()⟩
  | i, afterPipe, cmd :: queue =>
    if host.failsAt i cmd then ⟨shell, [], .returned ()⟩
    else if afterPipe ∨ cmd.connectionMask = .pipe ∨ cmd.connectionMask = .background ∨
      queue ≠ [] then
      let rest := carryOut host shell (i + 1) (cmd.connectionMask == .pipe) queue
      { rest with started := host.forked i cmd ++ rest.started }
    else
      match isBuiltin cmd.path with
      | none => ⟨shell, [], .crashed⟩
      | some false => ⟨shell, host.forked i cmd, .returned ()⟩
      | some true =>
        let done := executeCommand host shell cmd
        ⟨done.shell shell, [(none, i, cmd)], done.finish⟩

/-- The starts of the first commands. -/
def forkedAt (host : Host) (q : Queue) (i : Nat) : List (Option Nat × Nat × Command) :=
  q[i]?.elim [] (host.forked i)

def Start.told (start : Start) : Option Nat × Nat × Command :=
  (start.process, start.index, start.command)

variable {host : Host} {stack : Stack} {q : Queue} {i k : Nat} {cmd : Command} {shell : Shell}
  {files : JobFiles} {memory : Memory} {w w' : JobWorld} {afterPipe : Bool}

theorem carryOut_failed (queue : Queue) (hfail : host.failsAt i cmd = true) :
    carryOut host shell i afterPipe (cmd :: queue) = ⟨shell, [], .returned ()⟩ := if_pos hfail

/-- A single command at the end in the foreground. -/
theorem carryOut_last (hok : host.failsAt i cmd = false)
    (hsingle : (afterPipe || cmd.connectionMask == .pipe) = false)
    (hmask : cmd.connectionMask ≠ .background) :
    carryOut host shell i afterPipe [cmd] =
      match isBuiltin cmd.path with
      | none => ⟨shell, [], .crashed⟩
      | some false => ⟨shell, host.forked i cmd, .returned ()⟩
      | some true => ⟨(executeCommand host shell cmd).shell shell, [(none, i, cmd)],
          (executeCommand host shell cmd).finish⟩ := by
  obtain ⟨hafter, hpipe⟩ := Bool.or_eq_false_iff.mp hsingle
  have hpipe' : cmd.connectionMask ≠ .pipe := by simpa using hpipe
  have hnot : ¬ (afterPipe = true ∨ cmd.connectionMask = .pipe ∨
      cmd.connectionMask = .background ∨ ([] : Queue) ≠ []) := by
    simp [hafter, hpipe', hmask]
  rw [carryOut, if_neg (by rw [hok]; exact Bool.false_ne_true), if_neg hnot]

/-- A command with a child leaves the rest of the line to do. -/
theorem carryOut_forked (queue : Queue) (hok : host.failsAt i cmd = false)
    (hforks : (afterPipe || cmd.connectionMask == .pipe) = false →
      runsInShell cmd queue = some false) :
    carryOut host shell i afterPipe (cmd :: queue) =
      { carryOut host shell (i + 1) (cmd.connectionMask == .pipe) queue with
        started := host.forked i cmd ++
          (carryOut host shell (i + 1) (cmd.connectionMask == .pipe) queue).started } := by
  by_cases hchild : afterPipe = true ∨ cmd.connectionMask = .pipe ∨
      cmd.connectionMask = .background ∨ queue ≠ []
  · rw [carryOut, if_neg (by rw [hok]; exact Bool.false_ne_true), if_pos hchild]
  · -- The last command, which is no builtin.
    simp only [not_or, not_not, Bool.not_eq_true] at hchild
    obtain ⟨hafter, hpipe, hmask, rfl⟩ := hchild
    have hsingle : (afterPipe || cmd.connectionMask == .pipe) = false := by simp [hafter, hpipe]
    have hbuiltin := hforks hsingle
    rw [runsInShell, if_pos ⟨hmask, rfl⟩] at hbuiltin
    rw [carryOut_last hok hsingle hmask, hbuiltin, carryOut, List.append_nil]

/-- The commands before an index at which the loop goes on. -/
theorem carryOut_drop (shell : Shell) (hcont : Continues host q k) (hk : k ≤ q.length) :
    carryOut host shell 0 false q =
      { carryOut host shell k (afterPipeAt q k) (q.drop k) with
        started := (List.range k).flatMap (forkedAt host q) ++
          (carryOut host shell k (afterPipeAt q k) (q.drop k)).started } := by
  induction k with
  | zero => rfl
  | succ k ih =>
    have hcmd : q[k]? = some q[k] := List.getElem?_eq_getElem (by omega)
    have hok := hcont.opens k q[k] (by omega) hcmd
    have hforks := hcont.forks k q[k] (by omega) hcmd
    rw [pipedAt_eq hcmd] at hforks
    have hcont' : Continues host q k :=
      (hcont.mono (by omega))
    have hforked : forkedAt host q k = host.forked k q[k] := by
      rw [forkedAt, hcmd, Option.elim_some]
    rw [ih hcont' (by omega), drop_turn hcmd, carryOut_forked _ hok hforks, List.range_succ,
      List.flatMap_append, List.flatMap_singleton, hforked, afterPipeAt_succ hcmd,
      List.append_assoc]

theorem told_startsAt (stack : Stack) (f : JobFiles) (hi : i < q.length) :
    (startsAt host q (entry stack q f) i).map Start.told = forkedAt host q i := by
  have hcmd : q[i]? = some q[i] := List.getElem?_eq_getElem hi
  have hindex := (entry_counted host stack f hi.le).index
  rw [startsAt_eq hcmd, forkedAt, hcmd, Option.elim_some, Host.child, Host.forked]
  split
  · rw [List.map_singleton, Start.told, childStart, hindex]
  · rfl

theorem told_turns (stack : Stack) (f : JobFiles) (hk : k ≤ q.length) :
    ((List.range k).flatMap (startsAt host q (entry stack q f))).map Start.told =
      (List.range k).flatMap (forkedAt host q) := by
  rw [List.map_flatMap]
  refine List.flatMap_congr fun i hi => ?_
  exact told_startsAt stack f (by have := List.mem_range.mp hi; omega)

/-! The executor against it. -/

/-- The executor and the release of what it leaves of the queue have this effect. -/
structure HasEffect (done : JobWorld × Ending Unit) (effect : Effect) : Prop where
  shell : done.1.memory.shell = effect.shell
  started : (starts done.1).map Start.told = effect.started
  ending : done.2 = effect.ending

/-- A command that the shell may execute itself is the last one, in the foreground. -/
theorem runsInShell_alone {queue : Queue} {b : Option Bool} (h : runsInShell cmd queue = b)
    (hb : b ≠ some false) :
    queue = [] ∧ cmd.connectionMask ≠ .background ∧ isBuiltin cmd.path = b := by
  unfold runsInShell at h
  split at h
  · next hlast => exact ⟨List.length_eq_zero_iff.mp hlast.2, hlast.1, h⟩
  · exact absurd h.symm hb

/-- Where it does not return, nothing is released. -/
theorem hasEffect_ended {ending : Ending (Int × Queue)} {ending' : Ending Unit}
    (hrun : run host.system (executeCommandsInQueue stack q) w = (w', ending))
    (hending : ending = .exited ∧ ending' = .exited ∨ ending = .replaced ∧ ending' = .replaced ∨
      ending = .crashed ∧ ending' = .crashed) :
    HasEffect (runQueue host stack q w) ⟨w'.memory.shell, (starts w').map Start.told, ending'⟩ := by
  rcases hending with ⟨rfl, rfl⟩ | ⟨rfl, rfl⟩ | ⟨rfl, rfl⟩ <;> rw [runQueue, hrun] <;>
    exact ⟨rfl, rfl, rfl⟩

/-- Where the executor returns, the release of the queue changes nothing of this. -/
theorem hasEffect_returned {value : Int × Queue}
    (hrun : run host.system (executeCommandsInQueue stack q) w = (w', .returned value)) :
    HasEffect (runQueue host stack q w)
      ⟨w'.memory.shell, (starts w').map Start.told, .returned ()⟩ := by
  obtain ⟨w'', hout, hquiet, _⟩ := runQueue_of_returned hrun
  rw [hout]
  exact ⟨hquiet.shell, congrArg (List.map Start.told) hquiet.starts, rfl⟩

theorem starts_shellWorld (files : JobFiles) (memory : Memory) :
    starts (shellWorld files memory) = [] := rfl

/-- Whatever redirections, forks and executions fail, a line does to the shell what it says. -/
theorem runQueue_carriesOut (host : Host) (stack : Stack) (q : Queue) (files : JobFiles)
    (memory : Memory) :
    HasEffect (runQueue host stack q (shellWorld files memory))
      (carryOut host memory.shell 0 false q) := by
  have hw : (shellWorld files memory).process = none := rfl
  have hstart := starts_shellWorld files memory
  rcases course host q with ⟨k, cmd, hcont, hcmd, hfail⟩ |
    ⟨k, cmd, hcont, hcmd, hok, hsingle, hshell⟩ | ⟨k, cmd, hcont, hcmd, hok, hsingle, hshell⟩ |
    ⟨hcont⟩
  · obtain ⟨w', path, hrun, hmoved⟩ := execute_failed stack hw hcont hcmd hfail
    have hlt := lt_of_turn hcmd
    have heffect := hasEffect_returned hrun
    rw [hmoved.shell, hmoved.starts, hstart, List.nil_append, told_turns stack _ hlt.le] at heffect
    rw [carryOut_drop _ hcont hlt.le, drop_turn hcmd, carryOut_failed _ hfail, List.append_nil]
    exact heffect
  · obtain ⟨w₁, w', hrun, hmoved, hran⟩ := execute_inShell stack hw hcont hcmd hok hsingle hshell
    have hlt := lt_of_turn hcmd
    obtain ⟨hlast, hmask, hbuiltin⟩ := runsInShell_alone hshell (by rintro ⟨⟩)
    have hstarts : (starts w').map Start.told =
        (List.range k).flatMap (forkedAt host q) ++ [(none, k, cmd)] := by
      rw [hran.starts, hmoved.starts, hstart, List.nil_append, List.map_append,
        told_turns stack _ hlt.le]
      rfl
    have hstate : w'.memory.shell = (executeCommand host memory.shell cmd).shell memory.shell := by
      rw [hran.shell, hmoved.shell]
      rfl
    change _ = (w', (executeCommand host memory.shell cmd).ending) at hrun
    rw [pipedAt_eq hcmd] at hsingle
    rw [carryOut_drop _ hcont hlt.le, drop_turn hcmd, hlast, carryOut_last hok hsingle hmask,
      hbuiltin]
    dsimp only
    rw [← hstate, ← hstarts]
    cases hdone : executeCommand host memory.shell cmd with
    | returned status shell printed errors =>
      rw [hdone] at hrun
      exact hasEffect_returned hrun
    | exited printed =>
      rw [hdone] at hrun
      exact hasEffect_ended hrun (.inl ⟨rfl, rfl⟩)
    | replaced =>
      rw [hdone] at hrun
      exact hasEffect_ended hrun (.inr (.inl ⟨rfl, rfl⟩))
    | crashed =>
      rw [hdone] at hrun
      exact hasEffect_ended hrun (.inr (.inr ⟨rfl, rfl⟩))
  · obtain ⟨w', hrun, hmoved⟩ := execute_nameless stack hw hcont hcmd hok hsingle hshell
    have hlt := lt_of_turn hcmd
    obtain ⟨hlast, hmask, hbuiltin⟩ := runsInShell_alone hshell (by rintro ⟨⟩)
    have heffect := hasEffect_ended hrun (.inr (.inr ⟨rfl, rfl⟩))
    rw [hmoved.shell, hmoved.starts, hstart, List.nil_append, told_turns stack _ hlt.le] at heffect
    rw [pipedAt_eq hcmd] at hsingle
    rw [carryOut_drop _ hcont hlt.le, drop_turn hcmd, hlast, carryOut_last hok hsingle hmask,
      hbuiltin]
    dsimp only
    rw [List.append_nil]
    exact heffect
  · by_cases hq : q = []
    · subst hq
      exact ⟨rfl, rfl, rfl⟩
    · obtain ⟨w', hrun, hmoved⟩ := execute_finished stack hq hw hcont
      have heffect := hasEffect_returned hrun
      rw [hmoved.shell, hmoved.starts, hstart, List.nil_append, told_turns stack _ le_rfl]
        at heffect
      rw [carryOut_drop _ hcont le_rfl, List.drop_length, carryOut, List.append_nil]
      exact heffect

end Redshell
