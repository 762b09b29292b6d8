import Redshell.Owned
import Redshell.Queued
import Redshell.Sequences

/-! What becomes of every command in one iteration of `run`. -/
namespace Redshell

/-- The part of an iteration of `run` after the parse: the queue is executed and released. -/
def runQueue (host : Host) (stack : Stack) (q : Queue) (w : JobWorld) : JobWorld × Ending Unit :=
  match run host.system (executeCommandsInQueue stack q) w with
  | (w', .returned result) => run host.system (queueFree result.2) w'
  | (w', .exited) => (w', .exited)
  | (w', .replaced) => (w', .replaced)
  | (w', .crashed) => (w', .crashed)

def Deed.released : Deed → Option Nat
  | free cmd => some cmd.addr
  | _ => none

/-- The commands that `commandFree` gets. -/
def released (done : List Done) : List Nat := done.filterMap fun d => d.deed.released

/-- Every command created is released once, by `free` only if it has received nothing. -/
structure Balanced (created : Nat) (r : Parse) (w : JobWorld) : Prop where
  once : (r.discarded.map (·.addr) ++ r.leftover.toList.map (·.addr) ++ released (deeds w)).Perm
    (List.range' created (r.session.created - created))
  bare : ∀ cmd, r.leftover = some cmd →
    cmd.argv = none ∧ cmd.redirectToPath = none ∧ cmd.redirectFromPath = none

/-- The loop gets to a command with a redirection that does not open. -/
def FailsToOpen (host : Host) (q : Queue) : Prop :=
  ∃ k cmd, Continues host q k ∧ q[k]? = some cmd ∧ host.failsAt k cmd = true

/-- The loop gets, after other commands, to a builtin that the shell executes and that returns. -/
def ReturnsInShell (host : Host) (shell : Shell) (q : Queue) : Prop :=
  ∃ k cmd, 0 < k ∧ Continues host q k ∧ q[k]? = some cmd ∧ host.failsAt k cmd = false ∧
    pipedAt q k = false ∧ runsInShell cmd (q.drop (k + 1)) = some true ∧
    (executeCommand host shell cmd).ending = .returned (0, [])

variable {host : Host} {stack : Stack} {q : Queue} {w w' : JobWorld} {l : Locals} {f : JobFiles}
  {cmd : Command} {k created : Nat} {done done' : List Done} {r : Parse}

theorem released_append : released (done ++ done') = released done ++ released done' :=
  List.filterMap_append

theorem released_waited (l : Locals) (f : JobFiles) : released (l.waited f) = [] := by
  unfold Locals.waited
  split
  · rfl
  · split <;> rfl

theorem released_freed (l : Locals) (f : JobFiles) :
    released (l.freed f) = l.lastCommand.toList.map (·.addr) := by
  unfold Locals.freed
  split
  · next h => rw [h]; rfl
  · next last h => rw [h]; rfl

theorem released_queue (queue : Queue) :
    released (queue.map fun cmd => ⟨f.fds, .free cmd⟩) = queue.map (·.addr) := by
  rw [released, List.filterMap_map]
  exact List.filterMap_eq_map ▸ rfl

/-- A turn releases the command of the turn before. -/
theorem released_turnDeeds (host : Host) (cmd : Command) (t : Locals × JobFiles) :
    released (turnDeeds host cmd t) = t.1.lastCommand.toList.map (·.addr) := by
  rw [turnDeeds]
  split
  · rw [Locals.pipedDeeds, released_append, released_waited, List.nil_append]
    exact released_freed t.1 _
  · rw [Locals.singleDeeds, released_append, released_waited, List.nil_append]
    exact released_freed t.1 _

theorem released_finalDeeds (l : Locals) (f : JobFiles) :
    released (l.finalDeeds f) = l.lastCommand.toList.map (·.addr) := by
  have hreaps : ∀ g : JobFiles, released ((List.range l.nCommands).map fun i : Nat =>
      ⟨g.fds, .reap (l.launched i)⟩) = [] := by
    intro g
    rw [released, List.filterMap_map]
    exact List.filterMap_eq_nil_iff.mpr fun i _ => rfl
  rw [Locals.finalDeeds, released_append, released_append, released_append, released_waited,
    released_freed, hreaps]
  simp [released, Deed.released]

theorem released_turns (host : Host) (stack : Stack) (f : JobFiles) (hk : k ≤ q.length) :
    released ((List.range k).flatMap (deedsAt host q (entry stack q f))) =
      (q.take (k - 1)).map (·.addr) := by
  induction k with
  | zero => simp [released]
  | succ k ih =>
    have hcmd : q[k]? = some q[k] := List.getElem?_eq_getElem (by omega)
    rw [List.range_succ, List.flatMap_append, List.flatMap_singleton, released_append,
      ih (by omega), deedsAt_eq hcmd, released_turnDeeds,
      (entry_counted host stack f (by omega)).last]
    cases k with
    | zero => rfl
    | succ k =>
      rw [if_neg (Nat.succ_ne_zero k), ← List.map_append]
      congr 1
      change q.take k ++ q[k]?.toList = q.take (k + 1)
      exact List.take_add_one.symm

/-- Where the executor returns, what it leaves of the queue is released. -/
theorem runQueue_of_returned {value : Int × Queue}
    (hrun : run host.system (executeCommandsInQueue stack q) w = (w', .returned value)) :
    ∃ w'', runQueue host stack q w = (w'', .returned ()) ∧
      Quiet w' (value.2.map fun cmd => ⟨w'.files.fds, .free cmd⟩) w'' ∧ w''.files = w'.files := by
  obtain ⟨w'', hreturns, hquiet, hfiles⟩ :=
    (queueFree_leaves value.2 : Leaves host _ _ _ _ _) w' rfl
  refine ⟨w'', ?_, hquiet, hfiles⟩
  rw [runQueue, hrun]
  exact hreturns.run_eq

/-- Where it does not, nothing is. -/
theorem runQueue_of_not_returned {ending : Ending (Int × Queue)}
    (hrun : run host.system (executeCommandsInQueue stack q) w = (w', ending))
    (h : ∀ value, ending ≠ .returned value) :
    (runQueue host stack q w).1 = w' ∧ (runQueue host stack q w).2 ≠ .returned () := by
  rw [runQueue, hrun]
  cases ending with
  | returned value => exact absurd rfl (h value)
  | exited => exact ⟨rfl, by rintro ⟨⟩⟩
  | replaced => exact ⟨rfl, by rintro ⟨⟩⟩
  | crashed => exact ⟨rfl, by rintro ⟨⟩⟩

/-- An iteration is completed exactly when the executor returns. -/
theorem runQueue_returns_iff : (runQueue host stack q w).2 = .returned () ↔
    ∃ value, (run host.system (executeCommandsInQueue stack q) w).2 = .returned value := by
  cases hrun : run host.system (executeCommandsInQueue stack q) w with
  | mk w' ending =>
    by_cases hreturned : ∃ value, ending = .returned value
    · obtain ⟨value, rfl⟩ := hreturned
      obtain ⟨w'', hout, _⟩ := runQueue_of_returned hrun
      rw [hout]
      exact iff_of_true rfl ⟨value, rfl⟩
    · exact iff_of_false (runQueue_of_not_returned hrun (not_exists.mp hreturned)).2 hreturned

theorem runQueue_returned {value : Int × Queue}
    (hrun : run host.system (executeCommandsInQueue stack q) w = (w', .returned value))
    (hw : w'.process = none) :
    ∃ w'', runQueue host stack q w = (w'', .returned ()) ∧
      released (deeds w'') = released (deeds w') ++ value.2.map (·.addr) := by
  obtain ⟨w'', hout, hquiet, _⟩ := runQueue_of_returned hrun
  refine ⟨w'', hout, ?_⟩
  rw [(hquiet.moved hw).deeds, released_append, released_queue]

/-- The parse accounts for all but the queue, which the shell has to release. -/
theorem Parse.Owns.balanced_iff (hr : r.Owns created) :
    Balanced created r w ↔ (released (deeds w)).Perm (r.queue.map (·.addr)) := by
  have hperm : (r.discarded.map (·.addr) ++ r.leftover.toList.map (·.addr) ++
      r.queue.map (·.addr)).Perm (List.range' created (r.session.created - created)) := by
    rw [← hr.addrs, List.map_append, List.map_append, List.append_assoc, List.append_assoc]
    exact List.perm_append_comm.append_left _
  constructor
  · intro h
    exact (List.perm_append_left_iff _).mp (h.once.trans hperm.symm)
  · intro h
    exact ⟨(h.append_left _).trans hperm, hr.bare⟩

/-! The ways a run can go. -/

theorem runQueue_failed (stack : Stack) (hw : w.process = none) (hempty : deeds w = [])
    (hcont : Continues host q k) (hcmd : q[k]? = some cmd) (hfail : host.failsAt k cmd = true) :
    ∃ w', runQueue host stack q w = (w', .returned ()) ∧
      (released (deeds w')).length < q.length := by
  have hlt := lt_of_turn hcmd
  obtain ⟨w₁, path, hrun, hmoved⟩ := execute_failed stack hw hcont hcmd hfail
  obtain ⟨w₂, hrun₂, hreleased⟩ := runQueue_returned hrun hmoved.process
  refine ⟨w₂, hrun₂, ?_⟩
  rw [hreleased, hmoved.deeds, hempty, List.nil_append, released_append, released_waited,
    List.append_nil, released_turns host stack w.files hlt.le]
  simp only [List.length_append, List.length_map, List.length_take, List.length_drop]
  omega

theorem runQueue_inShell (stack : Stack) (hw : w.process = none) (hempty : deeds w = [])
    (hcont : Continues host q k) (hcmd : q[k]? = some cmd) (hok : host.failsAt k cmd = false)
    (hsingle : pipedAt q k = false) (hshell : runsInShell cmd (q.drop (k + 1)) = some true) :
    ((executeCommand host w.memory.shell cmd).ending = .returned (0, []) ∧
      ∃ w', runQueue host stack q w = (w', .returned ()) ∧
        released (deeds w') = (q.take (k - 1)).map (·.addr) ++ [cmd.addr]) ∨
      (executeCommand host w.memory.shell cmd).ending ≠ .returned (0, []) ∧
        (runQueue host stack q w).2 ≠ .returned () := by
  have hlt := lt_of_turn hcmd
  obtain ⟨w₁, w₂, hrun, hmoved, hran⟩ := execute_inShell stack hw hcont hcmd hok hsingle hshell
  cases hdone : executeCommand host w.memory.shell cmd with
  | returned status shell printed errors =>
    rw [hdone] at hrun hran
    obtain ⟨w₃, hrun₃, hreleased⟩ := runQueue_returned hrun hran.process
    refine .inl ⟨rfl, w₃, hrun₃, ?_⟩
    rw [hreleased, hran.deeds, hmoved.deeds, hempty, List.nil_append, released_append,
      released_append, released_waited, released_turns host stack w.files hlt.le]
    simp [released, Executed.freed, Deed.released]
  | exited printed =>
    rw [hdone] at hrun
    refine .inr ⟨by simp [Executed.ending], ?_⟩
    simp [runQueue, hrun, Executed.ending]
  | crashed =>
    rw [hdone] at hrun
    refine .inr ⟨by simp [Executed.ending], ?_⟩
    simp [runQueue, hrun, Executed.ending]
  | replaced =>
    rw [hdone] at hrun
    refine .inr ⟨by simp [Executed.ending], ?_⟩
    simp [runQueue, hrun, Executed.ending]

theorem runQueue_finished (stack : Stack) (hw : w.process = none) (hempty : deeds w = [])
    (hcont : Continues host q q.length) :
    ∃ w', runQueue host stack q w = (w', .returned ()) ∧
      released (deeds w') = q.map (·.addr) := by
  by_cases hq : q = []
  · subst hq
    exact ⟨w, rfl, by rw [hempty]; rfl⟩
  · obtain ⟨w₁, hrun, hmoved⟩ := execute_finished stack hq hw hcont
    obtain ⟨w₂, hrun₂, hreleased⟩ := runQueue_returned hrun hmoved.process
    refine ⟨w₂, hrun₂, ?_⟩
    rw [hreleased, hmoved.deeds, hempty, List.nil_append, released_append, released_finalDeeds,
      released_turns host stack w.files le_rfl, (entry_counted host stack w.files le_rfl).last,
      if_neg (by simpa using hq), ← List.map_append, List.map_nil, List.append_nil]
    congr 1
    have hpos := List.length_pos_of_ne_nil hq
    calc q.take (q.length - 1) ++ q[q.length - 1]?.toList
        = q.take (q.length - 1 + 1) := List.take_add_one.symm
      _ = q := by rw [Nat.sub_add_cancel hpos, List.take_length]

/-- In an iteration that is completed every command is released once exactly when no redirection
fails to open, and no builtin returns in the shell after other commands. -/
theorem runQueue_balanced_iff (wordexp : Wordexp) (ss : Session) (line : CString)
    (hline : ∀ c ∈ line, c ≠ 0) (host : Host) (stack : Stack) (files : JobFiles)
    (memory : Memory) :
    ∃ r, parseInput wordexp ss line = .ok r ∧
      (((runQueue host stack r.queue (shellWorld files memory)).2 = .returned () →
          Balanced ss.created r (runQueue host stack r.queue (shellWorld files memory)).1) ↔
        ¬ FailsToOpen host r.queue ∧ ¬ ReturnsInShell host memory.shell r.queue) := by
  obtain ⟨r, hr, _⟩ := parseInput_spec wordexp ss hline
  refine ⟨r, hr, ?_⟩
  have howns := parseInput_owns hline hr
  have hw : (shellWorld files memory).process = none := rfl
  have hempty : deeds (shellWorld files memory) = [] := rfl
  rw [howns.balanced_iff]
  constructor
  · intro hbalanced
    refine ⟨?_, ?_⟩
    · rintro ⟨k, cmd, hcont, hcmd, hfail⟩
      obtain ⟨w', hrun, hlen⟩ := runQueue_failed stack hw hempty hcont hcmd hfail
      rw [hrun] at hbalanced
      have hperm : (released (deeds w')).length = _ := (hbalanced rfl).length_eq
      rw [List.length_map] at hperm
      omega
    · rintro ⟨k, cmd, hk, hcont, hcmd, hok, hsingle, hshell, hreturns⟩
      obtain ⟨_, w', hrun, hreleased⟩ | ⟨hnot, _⟩ :=
        runQueue_inShell stack hw hempty hcont hcmd hok hsingle hshell
      · rw [hrun, hreleased] at hbalanced
        have hperm := (hbalanced rfl).length_eq
        have hlt := lt_of_turn hcmd
        simp only [List.length_append, List.length_map, List.length_take, List.length_singleton]
          at hperm
        omega
      · exact absurd hreturns hnot
  · rintro ⟨hopens, hreturns⟩ hcompleted
    rcases course host r.queue with ⟨k, cmd, hcont, hcmd, hfail⟩ |
      ⟨k, cmd, hcont, hcmd, hok, hsingle, hshell⟩ | ⟨k, cmd, hcont, hcmd, hok, hsingle, hshell⟩ |
      ⟨hcont⟩
    · exact absurd ⟨k, cmd, hcont, hcmd, hfail⟩ hopens
    · obtain ⟨hreturned, w', hrun, hreleased⟩ | ⟨_, hnot⟩ :=
        runQueue_inShell stack hw hempty hcont hcmd hok hsingle hshell
      · have hzero : k = 0 := by
          by_contra hk
          exact hreturns ⟨k, cmd, Nat.pos_of_ne_zero hk, hcont, hcmd, hok, hsingle, hshell,
            hreturned⟩
        subst hzero
        have hqueue : r.queue = [cmd] := by
          have hdrop := drop_turn hcmd
          rwa [List.drop_zero, runsInShell_last hshell] at hdrop
        rw [hrun, hreleased, hqueue]
        exact List.Perm.refl _
      · exact absurd hcompleted hnot
    · obtain ⟨w', hrun, _⟩ := execute_nameless stack hw hcont hcmd hok hsingle hshell
      simp [runQueue, hrun] at hcompleted
    · obtain ⟨w', hrun, hreleased⟩ := runQueue_finished stack hw hempty hcont
      rw [hrun, hreleased]

/-- The line `ls | wc`. -/
theorem runQueue_balanced_iff_ls :
    ∃ r, parseInput splitBlanks ⟨Dictionary.empty.toAliases, [], 0⟩ (bytes "ls | wc") = .ok r ∧
      (((runQueue willing zeroStack r.queue (shellWorld terminal.files terminal.memory)).2 =
            .returned () →
          Balanced 0 r
            (runQueue willing zeroStack r.queue (shellWorld terminal.files terminal.memory)).1) ↔
        ¬ FailsToOpen willing r.queue ∧ ¬ ReturnsInShell willing terminal.memory.shell r.queue) :=
  runQueue_balanced_iff splitBlanks ⟨Dictionary.empty.toAliases, [], 0⟩ (bytes "ls | wc")
    (by decide +kernel) willing zeroStack terminal.files terminal.memory

/-- A system without files. -/
def fileless : Host := { willing with opens := fun _ => false }

/-- In `ls < in`, when there is no file `in`, the command is never released. -/
theorem runQueue_leaks :
    ¬ ∀ (wordexp : Wordexp) (ss : Session) (line : CString), (∀ c ∈ line, c ≠ 0) →
      ∀ (host : Host) (stack : Stack) (files : JobFiles) (memory : Memory),
      ∃ r, parseInput wordexp ss line = .ok r ∧
        ((runQueue host stack r.queue (shellWorld files memory)).2 = .returned () →
          Balanced ss.created r (runQueue host stack r.queue (shellWorld files memory)).1) := by
  intro hall
  obtain ⟨r, hr, hbalanced⟩ := hall splitBlanks ⟨Dictionary.empty.toAliases, [], 0⟩
    (bytes "ls < in") (by decide +kernel) fileless zeroStack terminal.files terminal.memory
  have hrun : (parseInput splitBlanks ⟨Dictionary.empty.toAliases, [], 0⟩ (bytes "ls < in")).map
      (fun r => (r.discarded.length, r.leftover.isSome, r.session.created,
        (runQueue fileless zeroStack r.queue (shellWorld terminal.files terminal.memory)).2,
        released (deeds (runQueue fileless zeroStack r.queue
          (shellWorld terminal.files terminal.memory)).1))) =
      .ok (0, false, 1, .returned (), []) := by decide +kernel
  rw [hr] at hrun
  have hvalues := Except.ok.inj hrun
  simp only [Prod.mk.injEq] at hvalues
  obtain ⟨hdiscarded, hleftover, hcreated, hcompleted, hreleased⟩ := hvalues
  have hlen := (hbalanced hcompleted).once.length_eq
  rw [hreleased, hcreated] at hlen
  simp [hdiscarded, hleftover] at hlen

end Redshell
