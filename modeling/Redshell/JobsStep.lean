import Redshell.JobsRun

/-! One turn of the executor's loop, for every way it can go. -/
namespace Redshell

/-- A part of a run of the shell: its own deeds, and what it and its children started. -/
structure Moved (w : JobWorld) (files : JobFiles) (done : List Done) (started : List Start)
    (w' : JobWorld) : Prop where
  process : w'.process = none
  shell : w'.memory.shell = w.memory.shell
  fgPid : w'.memory.fgPid = fgPidAfter w.memory.fgPid done
  files : w'.files = files
  starts : starts w' = starts w ++ started
  deeds : deeds w' = deeds w ++ done

/-- What `fork` returns in the shell. -/
def Host.pid (host : Host) (i : Nat) : Int :=
  match host.forks i with
  | none => -1
  | some pid => pid

/-- What a child starts, when there is one. -/
def Host.child (host : Host) (i : Nat) (start : Start) : List Start :=
  if (host.forks i).isSome then [start] else []

variable {α : Type} {host : Host} {f f' : JobFiles} {l : Locals} {cmd : Command} {queue : Queue}
  {w w' w'' : JobWorld} {ss ss' : List Start} {done done' : List Done}
  {i : Nat}

theorem Quiet.moved (h : Quiet w done w') (hw : w.process = none) :
    Moved w w'.files done [] w' := by
  refine ⟨h.process.trans hw, h.shell, h.fgPid, rfl, ?_, ?_⟩
  · rw [h.starts, List.append_nil]
  · rw [h.deeds, hw]
    rfl

theorem Moved.trans (h : Moved w f done ss w') (h' : Moved w' f' done' ss' w'') :
    Moved w f' (done ++ done') (ss ++ ss') w'' := by
  refine ⟨h'.process, h'.shell.trans h.shell, ?_, h'.files, ?_, ?_⟩
  · rw [h'.fgPid, h.fgPid, fgPidAfter, fgPidAfter, fgPidAfter, List.foldl_append]
  · rw [h'.starts, h.starts, List.append_assoc]
  · rw [h'.deeds, h.deeds, List.append_assoc]

/-- A child's run shows only in what it started, when it starts one command and returns nothing. -/
theorem fork_moved {child : Job α} (i : Nat) (start : Start) (hw : w.process = none)
    (hchild : ∀ w' : JobWorld, w'.process = some i → w'.files = w.files →
      ChildRan w' [start] (run host.system child w').1) :
    ∃ w', (∀ parent : Int → Job α,
        run host.system (.fork i fun pid => if pid = 0 then child else parent pid) w =
          run host.system (parent (host.pid i)) w') ∧
      Moved w w.files [⟨w.files.fds, .fork i (host.pid i)⟩] (host.child i start) w' := by
  have hstarts : ∀ pid, starts (w.log (.fork i pid)) = starts w := by
    intro pid
    simp [starts, World.log, startOf]
  have hdeeds : ∀ pid, deeds (w.log (.fork i pid)) = deeds w ++ [⟨w.files.fds, .fork i pid⟩] := by
    intro pid
    simp [deeds, World.log, doneOf, deedOf, hw]
  cases hf : host.forks i with
  | none =>
    refine ⟨w.log (.fork i (-1)), fun parent => ?_, hw, rfl, rfl, rfl, ?_, ?_⟩
    · rw [run, show host.system.forks i = none from hf]
      simp [Host.pid, hf]
    · simp [hstarts, Host.child, hf]
    · simp [hdeeds, Host.pid, hf]
  | some pid =>
    have hchild' := hchild ((w.log (.fork i pid)).child i) rfl rfl
    generalize hw' : (run host.system child ((w.log (.fork i pid)).child i)).1 = w' at hchild'
    obtain ⟨hstarted, hdone, hnext⟩ := hchild'
    change w'.files.nextFile = w.files.nextFile at hnext
    refine ⟨(w.log (.fork i pid)).join w', fun parent => ?_, hw, rfl, rfl, ?_, ?_, ?_⟩
    · have hpos : (pid : Int) ≠ 0 := by
        have := pid.pos
        omega
      rw [run, show host.system.forks i = some pid from hf]
      simp [Host.pid, hf, hw']
    · simp [World.join, World.log, hnext]
    · have happend : starts ((w.log (.fork i pid)).join w') =
          starts (w.log (.fork i pid)) ++ starts w' := by
        simp [starts, World.join]
      rw [happend, hstarted, hstarts]
      simp [Host.child, hf, starts, World.child]
    · have happend : deeds ((w.log (.fork i pid)).join w') =
          deeds (w.log (.fork i pid)) ++ deeds w' := by
        simp [deeds, World.join]
      rw [happend, hdone, hdeeds]
      simp [Host.pid, hf, deeds, World.child]

/-- The command is connected by a pipe to the last one or to the next one. -/
def Locals.piped (l : Locals) (cmd : Command) : Bool :=
  l.afterPipe || cmd.connectionMask == .pipe

theorem piped_iff : l.piped cmd = true ↔ l.afterPipe ∨ cmd.connectionMask = .pipe := by
  simp [Locals.piped]

theorem prepared_piped_iff (f : JobFiles) : l.piped cmd = true ↔
    (l.prepared f cmd).1.afterPipe = true ∨ cmd.connectionMask = .pipe := piped_iff

theorem not_piped (h : l.piped cmd = false) (f : JobFiles) :
    ¬ ((l.prepared f cmd).1.afterPipe = true ∨ cmd.connectionMask = .pipe) := by
  rw [← prepared_piped_iff, h]
  exact Bool.false_ne_true

/-- The variables and the descriptors when a piped command's child is made. -/
def Locals.ready (l : Locals) (f : JobFiles) (cmd : Command) : Locals × JobFiles :=
  (l.prepared f cmd).1.started (l.prepared f cmd).2

/-- An `open` fails. -/
theorem commandLoop_failed (queue : Queue) (hw : w.process = none)
    (hfail : host.failsAt l.i cmd = true) :
    ∃ w' path, run host.system (commandLoop l (cmd :: queue)) w =
        (w', .returned (-1, queue)) ∧
      Moved w (((w.files.close l.fdIn).close l.fdOut).redirect l.i false path).2
        (l.waited w.files) [] w' := by
  obtain ⟨path, hprepare⟩ := prepare_fails (f := w.files) hfail
  obtain ⟨w', hreturns, hquiet, hw'⟩ := hprepare w rfl
  refine ⟨w', path, ?_, hw' ▸ hquiet.moved hw⟩
  rw [commandLoop, hreturns.run_bind]
  rfl

/-- The variables when the next command's turn comes after a piped one. -/
def Locals.afterPiped (l : Locals) (host : Host) (cmd : Command) : Locals :=
  Locals.next { l with
    pid := host.pid l.i, launched := Function.update l.launched l.i (host.pid l.i) } cmd

/-- The deeds of a turn that makes a piped child. -/
def Locals.pipedDeeds (l : Locals) (host : Host) (f : JobFiles) (cmd : Command) : List Done :=
  l.waited f ++
    (⟨(l.ready f cmd).2.fds, .fork l.i (host.pid l.i)⟩ ::
      ⟨(l.ready f cmd).2.fds, .setFgPid (host.pid l.i)⟩ :: l.freed (l.ready f cmd).2)

theorem withPipes_frame (l : Locals) (f : JobFiles) (count : Nat) :
    (l.withPipes f count).1 = { l with pipes := (l.withPipes f count).1.pipes } := by
  induction count with
  | zero => rfl
  | succ count ih =>
    rw [Locals.withPipes]
    dsimp only
    rw [ih]

theorem ready_frame (l : Locals) (f : JobFiles) (cmd : Command) :
    (l.ready f cmd).1 =
      { (l.prepared f cmd).1 with pipes := (l.ready f cmd).1.pipes } := by
  rw [Locals.ready, Locals.started]
  split
  · rfl
  · exact withPipes_frame _ _ _

theorem commandLoop_piped (queue : Queue) (hw : w.process = none)
    (hok : host.failsAt l.i cmd = false) (hpiped : l.piped cmd = true) :
    ∃ w', run host.system (commandLoop l (cmd :: queue)) w =
        run host.system
          (commandLoop ((l.ready w.files cmd).1.afterPiped host cmd) queue) w' ∧
      Moved w (l.ready w.files cmd).2 (l.pipedDeeds host w.files cmd) (host.child l.i
        ⟨some l.i, l.i, cmd, ((l.ready w.files cmd).1.connected cmd (l.ready w.files cmd).2).fds⟩)
        w' := by
  obtain ⟨w₁, hrun₁, hquiet₁, hw₁⟩ := prepare_leaves (f := w.files) hok w rfl
  obtain ⟨w₂, hrun₂, hquiet₂, hw₂⟩ :=
    (startPipeline_leaves (l.prepared w.files cmd).1 : Leaves host _ _ _ _ _) w₁ hw₁
  change Returns _ _ _ (l.ready w.files cmd).1 _ at hrun₂
  change _ = (l.ready w.files cmd).2 at hw₂
  have hi : (l.ready w.files cmd).1.i = l.i := by
    rw [ready_frame]
    rfl
  have hlast : (l.ready w.files cmd).1.lastCommand = l.lastCommand := by
    rw [ready_frame]
    rfl
  rw [Locals.pipedDeeds]
  generalize l.ready w.files cmd = ready at hrun₂ hw₂ hi hlast ⊢
  obtain ⟨l', f'⟩ := ready
  dsimp only at hrun₂ hw₂ hi hlast ⊢
  have hprepared := hquiet₁.trans hquiet₂
  have hchild : ∀ w' : JobWorld, w'.process = some l'.i → w'.files = w₂.files →
      ChildRan w' [⟨some l'.i, l'.i, cmd, (l'.connected cmd f').fds⟩]
        (run host.system (pipedChild l' cmd queue : Job (Int × Queue)) w').1 := by
    intro w' hprocess hfiles
    have h := pipedChild_childRan (α := Int × Queue) host l' cmd queue hprocess
    rwa [hfiles, hw₂] at h
  obtain ⟨w₃, hrun₃, hmoved⟩ := fork_moved l'.i _ (hprepared.process.trans hw) hchild
  have hparent : Leaves host (.call (.store .launched l'.i) fun _ =>
      .call (.setFgPid (host.pid l'.i)) fun _ => freeLast l') w₃.files () w₃.files
        (⟨w₃.files.fds, .setFgPid (host.pid l'.i)⟩ :: l'.freed w₃.files) :=
    .store (.setFgPid (freeLast_leaves l'))
  obtain ⟨w₄, hrun₄, hquiet₄, hw₄⟩ := hparent w₃ rfl
  refine ⟨w₄, ?_, ?_⟩
  · rw [commandLoop, hrun₁.run_bind]
    dsimp only
    rw [if_pos ((prepared_piped_iff w.files).mp hpiped), hrun₂.run_bind, hrun₃]
    exact hrun₄.run_bind
  · have h := ((hprepared.moved hw).trans hmoved).trans (hquiet₄.moved hmoved.process)
    have hfreed : l'.freed w₃.files = l.freed f' := by
      rw [Locals.freed, Locals.freed, hlast, hmoved.files, hw₂]
    rw [hw₄, hmoved.files, hw₂, hi] at h
    rw [hmoved.files, hw₂] at hfreed
    rw [hfreed] at h
    simpa using h

/-- The variables when the next command's turn comes after one on its own. -/
def Locals.afterSingle (l : Locals) (host : Host) (cmd : Command) : Locals :=
  Locals.next { l with pid := host.pid l.i } cmd

/-- The descriptors once the streams are restored from their copies. -/
def Locals.restored (l : Locals) (f : JobFiles) : JobFiles :=
  (f.dup2 l.stdinCopy 0).dup2 l.stdoutCopy 1

/-- The deeds of a turn that makes the child of a command on its own. -/
def Locals.singleDeeds (l : Locals) (host : Host) (f : JobFiles) (cmd : Command) : List Done :=
  l.waited f ++
    (⟨(l.prepared f cmd).2.fds, .fork l.i (host.pid l.i)⟩ ::
      l.freed (l.restored (l.prepared f cmd).2))

theorem commandLoop_single (hw : w.process = none) (hok : host.failsAt l.i cmd = false)
    (hpiped : l.piped cmd = false) (hshell : runsInShell cmd queue = some false) :
    ∃ w', run host.system (commandLoop l (cmd :: queue)) w =
        run host.system
          (commandLoop ((l.prepared w.files cmd).1.afterSingle host cmd) queue) w' ∧
      Moved w (l.restored (l.prepared w.files cmd).2) (l.singleDeeds host w.files cmd)
        (host.child l.i ⟨some l.i, l.i, cmd, (l.prepared w.files cmd).2.fds⟩) w' := by
  have hbranch := not_piped hpiped w.files
  obtain ⟨w₁, hrun₁, hquiet₁, hw₁⟩ := prepare_leaves (f := w.files) hok w rfl
  have hchild : ∀ w' : JobWorld, w'.process = some l.i → w'.files = w₁.files →
      ChildRan w' [⟨some l.i, l.i, cmd, (l.prepared w.files cmd).2.fds⟩] (run host.system
          (singleChild (l.prepared w.files cmd).1 cmd : Job (Int × Queue)) w').1 := by
    intro w' hprocess hfiles
    have h := singleChild_childRan (α := Int × Queue) host (l.prepared w.files cmd).1 cmd w'
    rwa [hprocess, hfiles, hw₁] at h
  obtain ⟨w₂, hrun₂, hmoved⟩ := fork_moved l.i _ (hquiet₁.process.trans hw) hchild
  obtain ⟨w₃, hrun₃, hquiet₃, hw₃⟩ :=
    (restore_leaves (l.prepared w.files cmd).1 : Leaves host _ _ _ _ _) w₂ hmoved.files
  obtain ⟨w₄, hrun₄, hquiet₄, hw₄⟩ :=
    (freeLast_leaves (l.prepared w.files cmd).1 : Leaves host _ _ _ _ _) w₃ hw₃
  refine ⟨w₄, ?_, ?_⟩
  · rw [commandLoop, hrun₁.run_bind]
    dsimp only
    rw [if_neg hbranch, hshell]
    dsimp only
    rw [show (l.prepared w.files cmd).1.i = l.i from rfl, hrun₂, hrun₃.run_bind, hrun₄.run_bind]
    rfl
  · have h := ((hquiet₁.moved hw).trans hmoved).trans
      ((hquiet₃.trans hquiet₄).moved hmoved.process)
    rw [hw₄, hw₁, List.append_nil, List.nil_append, List.append_assoc] at h
    exact h

/-- The command's path is NULL where `isBuiltin` gets it. -/
theorem commandLoop_nameless (hw : w.process = none) (hok : host.failsAt l.i cmd = false)
    (hpiped : l.piped cmd = false) (hshell : runsInShell cmd queue = none) :
    ∃ w', run host.system (commandLoop l (cmd :: queue)) w = (w', .crashed) ∧
      Moved w (l.prepared w.files cmd).2 (l.waited w.files) [] w' := by
  have hbranch := not_piped hpiped w.files
  obtain ⟨w₁, hrun₁, hquiet₁, hw₁⟩ := prepare_leaves (f := w.files) hok w rfl
  refine ⟨w₁, ?_, hw₁ ▸ hquiet₁.moved hw⟩
  rw [commandLoop, hrun₁.run_bind]
  dsimp only
  rw [if_neg hbranch, hshell]
  rfl

/-- How `executeCommandsInQueue` ends when it executes a command in the shell. -/
def Executed.ending : Executed → Ending (Int × Queue)
  | .returned _ _ _ _ => .returned (0, [])
  | .exited _ => .exited
  | .crashed => .crashed
  | .replaced => .replaced

theorem Executed.ending_value {executed : Executed} {value : Int × Queue}
    (h : executed.ending = .returned value) : value = (0, []) := by
  cases executed with
  | returned status shell printed errors =>
    cases h
    rfl
  | exited printed => cases h
  | crashed => cases h
  | replaced => cases h

/-- The shell's state after a command; one that does not return leaves it. -/
def Executed.shell (before : Shell) : Executed → Shell
  | .returned _ shell _ _ => shell
  | _ => before

/-- A command that was executed in the shell and returned is released. -/
def Executed.freed (cmd : Command) (f : JobFiles) : Executed → List Done
  | .returned _ _ _ _ => [⟨f.fds, .free cmd⟩]
  | _ => []

theorem runsInShell_last (h : runsInShell cmd queue = some true) : queue = [] := by
  unfold runsInShell at h
  split at h
  · next hlast => exact List.length_eq_zero_iff.mp hlast.2
  · cases h

/-- The last command is executed in the shell. -/
structure RanInShell (w : JobWorld) (files : JobFiles) (done : List Done) (start : Start)
    (executed : Executed) (w' : JobWorld) : Prop where
  process : w'.process = none
  shell : w'.memory.shell = executed.shell w.memory.shell
  fgPid : w'.memory.fgPid = w.memory.fgPid
  files : w'.files = files
  starts : starts w' = starts w ++ [start]
  deeds : deeds w' = deeds w ++ done

theorem waited_fgPid (l : Locals) (f : JobFiles) (pid : Int) :
    fgPidAfter pid (l.waited f) = pid := by
  unfold Locals.waited
  split
  · rfl
  · split <;> rfl

theorem commandLoop_inShell (hw : w.process = none) (hok : host.failsAt l.i cmd = false)
    (hpiped : l.piped cmd = false) (hshell : runsInShell cmd queue = some true) :
    ∃ w', run host.system (commandLoop l (cmd :: queue)) w =
        (w', (executeCommand host w.memory.shell cmd).ending) ∧
      RanInShell w (l.prepared w.files cmd).2
        (l.waited w.files ++
          (executeCommand host w.memory.shell cmd).freed cmd (l.prepared w.files cmd).2)
        ⟨none, l.i, cmd, (l.prepared w.files cmd).2.fds⟩
        (executeCommand host w.memory.shell cmd) w' := by
  obtain rfl := runsInShell_last hshell
  have hbranch := not_piped hpiped w.files
  obtain ⟨w₁, hrun₁, hquiet₁, hw₁⟩ := prepare_leaves (f := w.files) hok w rfl
  have hmoved := hquiet₁.moved hw
  have hstarts : ∀ memory, starts { w₁.log (.call (.execute l.i cmd)) with memory := memory } =
      starts w ++ [⟨none, l.i, cmd, (l.prepared w.files cmd).2.fds⟩] := by
    intro memory
    rw [← hquiet₁.starts, ← hmoved.process, ← hw₁]
    simp [starts, World.log, startOf]
  have hdeeds : ∀ memory, deeds { w₁.log (.call (.execute l.i cmd)) with memory := memory } =
      deeds w ++ l.waited w.files := by
    intro memory
    rw [← hmoved.deeds]
    simp [deeds, World.log, doneOf, deedOf]
  have hfg := hmoved.fgPid
  rw [waited_fgPid] at hfg
  have hrun : run host.system (commandLoop l [cmd]) w =
      run host.system
        (.call (.execute l.i cmd) fun _ => free cmd >>= fun _ => .ret (0, [])) w₁ := by
    rw [commandLoop, hrun₁.run_bind]
    dsimp only
    rw [if_neg hbranch, hshell]
    rfl
  have hperform : host.system.perform (.execute l.i cmd) w₁.memory =
      match executeCommand host w.memory.shell cmd with
      | .returned status shell _ _ => .returned status { w₁.memory with shell := shell }
      | .exited _ => .exited
      | .crashed => .crashed
      | .replaced => .replaced := by
    rw [← hquiet₁.shell]
    rfl
  rw [hrun, run, hperform]
  cases executeCommand host w.memory.shell cmd with
  | returned status shell printed errors =>
    obtain ⟨w₂, hrun₂, hquiet₂, hw₂⟩ := (free_leaves cmd : Leaves host _ _ _ _ _)
      { w₁.log (.call (.execute l.i cmd)) with memory := { w₁.memory with shell := shell } } rfl
    have hmoved₂ := hquiet₂.moved hmoved.process
    refine ⟨w₂, hrun₂.run_bind, hmoved₂.process, hquiet₂.shell, hquiet₂.fgPid.trans hfg,
      hw₂.trans hw₁, ?_, ?_⟩
    · exact hquiet₂.starts.trans (hstarts _)
    · rw [hmoved₂.deeds, hdeeds, List.append_assoc]
      simp [Executed.freed, World.log, hw₁]
  | exited printed =>
    exact ⟨_, rfl, hmoved.process, hquiet₁.shell, hfg, hw₁, hstarts w₁.memory,
      (hdeeds w₁.memory).trans (congrArg _ (List.append_nil _).symm)⟩
  | crashed =>
    exact ⟨_, rfl, hmoved.process, hquiet₁.shell, hfg, hw₁, hstarts w₁.memory,
      (hdeeds w₁.memory).trans (congrArg _ (List.append_nil _).symm)⟩
  | replaced =>
    exact ⟨_, rfl, hmoved.process, hquiet₁.shell, hfg, hw₁, hstarts w₁.memory,
      (hdeeds w₁.memory).trans (congrArg _ (List.append_nil _).symm)⟩

/-- The descriptors when the loop is over and the pipes are closed. -/
def Locals.finished (l : Locals) (f : JobFiles) : JobFiles :=
  l.restored (f.closeAll l.pipes (2 * (l.nCommands - 1)))

/-- The deeds after the loop. -/
def Locals.finalDeeds (l : Locals) (f : JobFiles) : List Done :=
  l.waited (l.finished f) ++ (l.freed (l.finished f) ++
    (((List.range l.nCommands).map fun i : Nat => ⟨(l.finished f).fds, .reap (l.launched i)⟩) ++
      [⟨(l.finished f).fds, .setFgPid 0⟩]))

/-- The end of the loop. -/
theorem commandLoop_nil (host : Host) (l : Locals) (hw : w.process = none) :
    ∃ w', run host.system (commandLoop l []) w = (w', .returned (0, [])) ∧
      Moved w (l.finished w.files) (l.finalDeeds w.files) [] w' := by
  have hleaves : Leaves host (finishQueue l) w.files (0, []) (l.finished w.files)
      (l.finalDeeds w.files) := by
    unfold finishQueue
    refine .quiet_bind (closepipes_leaves _ _) ?_
    refine .quiet_bind (restore_leaves l) ?_
    refine .bind (waitForLast_leaves l) ?_
    refine .bind (freeLast_leaves l) ?_
    exact .bind (reapLaunched_leaves _ _) (.setFgPid (.ret _))
  obtain ⟨w', hrun, hquiet, hw'⟩ := hleaves w rfl
  exact ⟨w', hrun.run_eq, hw' ▸ hquiet.moved hw⟩

end Redshell
