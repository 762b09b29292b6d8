import Redshell.Redirections

/-! Lists of foreground commands, and the same commands one at a time. -/
namespace Redshell

/-- A command as the parser makes it: its path is its first word. -/
structure Command.Formed (cmd : Command) (words : List CString) : Prop where
  argv : cmd.argv = some words
  path : cmd.path = words.head?

/-- Foreground commands joined by `;` at most, without redirections. -/
structure Listed (q : Queue) : Prop where
  formed : ∀ cmd ∈ q, ∃ words, cmd.Formed words
  mask : ∀ cmd ∈ q, cmd.connectionMask = .sequential ∨ cmd.connectionMask = .none
  redirectTo : ∀ cmd ∈ q, cmd.redirectToPath = none
  redirectFrom : ∀ cmd ∈ q, cmd.redirectFromPath = none

/-- The builtins that change the process that runs them. -/
def shellNames : List CString :=
  [bytes "cd", bytes "export", bytes "alias", bytes "unalias", bytes "exit"]

/-- The command is one of the builtins that change the process that runs them. -/
def Command.ActsOnShell (cmd : Command) : Prop := ∃ name ∈ shellNames, cmd.path = some name

/-- `executeCommandsInQueue` on one-command queues in order, as long as it returns. -/
def executeEach (sys : System Redirection Routine Memory) (stack : Stack) :
    Queue → JobWorld → JobWorld × Ending (Int × Queue)
  | [], w => (w, .returned (0, []))
  | cmd :: queue, w =>
    match run sys (executeCommandsInQueue stack [cmd]) w with
    | (w, .returned _) => executeEach sys stack queue w
    | (w, ending) => (w, ending)

/-- The shell's state after a command that is last in its queue, and how the executor ends. -/
def alone (host : Host) (shell : Shell) (cmd : Command) : Shell × Ending (Int × Queue) :=
  match isBuiltin cmd.path with
  | none => (shell, .crashed)
  | some false => (shell, .returned (0, []))
  | some true =>
    ((executeCommand host shell cmd).shell shell, (executeCommand host shell cmd).ending)

/-- The shell's state after commands that are each last in their queue. -/
def eachAlone (host : Host) : Shell → Queue → Shell × Ending (Int × Queue)
  | shell, [] => (shell, .returned (0, []))
  | shell, cmd :: queue =>
    match alone host shell cmd with
    | (shell, .returned _) => eachAlone host shell queue
    | (shell, ending) => (shell, ending)

variable {host : Host} {stack : Stack} {q : Queue} {i k : Nat} {cmd last : Command}
  {w : JobWorld} {shell : Shell} {start : Start} {words : List CString}

namespace Listed

theorem unpiped (h : Listed q) : Unpiped q := by
  intro cmd hmem hpipe
  rcases h.mask cmd hmem with hmask | hmask
  · cases hpipe.symm.trans hmask
  · cases hpipe.symm.trans hmask

theorem not_background (h : Listed q) (hmem : cmd ∈ q) : cmd.connectionMask ≠ .background := by
  intro hbackground
  rcases h.mask cmd hmem with hmask | hmask
  · cases hbackground.symm.trans hmask
  · cases hbackground.symm.trans hmask

theorem singleton (h : Listed q) (hmem : cmd ∈ q) : Listed [cmd] := by
  refine ⟨?_, ?_, ?_, ?_⟩ <;> intro cmd' hcmd' <;> obtain rfl := List.mem_singleton.mp hcmd'
  · exact h.formed cmd' hmem
  · exact h.mask cmd' hmem
  · exact h.redirectTo cmd' hmem
  · exact h.redirectFrom cmd' hmem

theorem tail (h : Listed (cmd :: q)) : Listed q :=
  ⟨fun cmd' hcmd' => h.formed cmd' (List.mem_cons_of_mem _ hcmd'),
    fun cmd' hcmd' => h.mask cmd' (List.mem_cons_of_mem _ hcmd'),
    fun cmd' hcmd' => h.redirectTo cmd' (List.mem_cons_of_mem _ hcmd'),
    fun cmd' hcmd' => h.redirectFrom cmd' (List.mem_cons_of_mem _ hcmd')⟩

theorem failsAt (h : Listed q) (host : Host) (hcmd : q[i]? = some cmd) :
    host.failsAt i cmd = false := by
  have hmem := List.mem_of_getElem? hcmd
  rw [Host.failsAt, h.redirectTo cmd hmem, h.redirectFrom cmd hmem]
  rfl

/-- The commands before the last all get a child. -/
theorem continues (h : Listed q) (host : Host) (hk : k + 1 ≤ q.length) : Continues host q k := by
  refine ⟨fun i cmd _ hcmd => h.failsAt host hcmd, fun i cmd hi hcmd _ => ?_⟩
  exact runsInShell_drop (by omega) cmd

/-- Where the last command of a list runs is decided by its name. -/
theorem runsInShell_last (h : Listed q) (hlast : q[k]? = some last) (hk : k + 1 = q.length) :
    runsInShell last (q.drop (k + 1)) = isBuiltin last.path := by
  refine if_pos ⟨h.not_background (List.mem_of_getElem? hlast), ?_⟩
  rw [List.length_drop, hk, Nat.sub_self]

end Listed

/-- What a list does to the shell is what its last command does; the others get a child. -/
theorem execute_listed (stack : Stack) (hhost : host.Succeeds) (h : Listed q)
    (hlast : q[k]? = some last) (hk : k + 1 = q.length) (hw : w.process = none) :
    ∃ w' final, run host.system (executeCommandsInQueue stack q) w =
        (w', (alone host w.memory.shell last).2) ∧
      w'.memory.shell = (alone host w.memory.shell last).1 ∧ w'.process = none ∧
      starts w' = starts w ++
        ((List.range k).flatMap (startsAt host q (entry stack q w.files)) ++ final) ∧
      ∀ start ∈ final, start.command = last ∧
        (start.process = none ∨ isBuiltin last.path = some false) := by
  have hcont := h.continues host (Nat.le_of_eq hk)
  have hok := h.failsAt host hlast
  have hsingle := h.unpiped.pipedAt hlast
  have hshell := h.runsInShell_last hlast hk
  rw [alone]
  cases hbuiltin : isBuiltin last.path with
  | none =>
    rw [hbuiltin] at hshell
    obtain ⟨w', hrun, hmoved⟩ := execute_nameless stack hw hcont hlast hok hsingle hshell
    refine ⟨w', [], hrun, hmoved.shell, hmoved.process, ?_, by simp⟩
    rw [hmoved.starts, List.append_nil]
  | some builtin =>
    rw [hbuiltin] at hshell
    cases builtin with
    | true =>
      obtain ⟨w₁, w', hrun, hmoved, hran⟩ :=
        execute_inShell stack hw hcont hlast hok hsingle hshell
      refine ⟨w', [⟨none, k, last, ((turnAt host q (entry stack q w.files) k).1.prepared
        (turnAt host q (entry stack q w.files) k).2 last).2.fds⟩], hrun, ?_, hran.process, ?_,
        fun start hstart => ?_⟩
      · rw [hran.shell, hmoved.shell]
      · rw [hran.starts, hmoved.starts, List.append_assoc]
      · rw [List.mem_singleton.mp hstart]
        exact ⟨rfl, .inl rfl⟩
    | false =>
      have hcont' := continues_succ hcont hlast hok fun _ => hshell
      rw [hk] at hcont'
      have hq : q ≠ [] := List.ne_nil_of_length_pos (by omega)
      obtain ⟨w', hrun, hmoved⟩ := execute_finished stack hq hw hcont'
      refine ⟨w', startsAt host q (entry stack q w.files) k, hrun, hmoved.shell, hmoved.process,
        ?_, fun start hstart => ?_⟩
      · rw [hmoved.starts, ← hk, List.range_succ, List.flatMap_append, List.flatMap_singleton]
      · rw [startsAt_eq hlast, hhost.child, List.mem_singleton] at hstart
        rw [hstart]
        exact ⟨rfl, .inr rfl⟩

/-! Commands one at a time. -/

theorem findBuiltin_mem {name : CString} {fn : Builtin} (h : findBuiltin name = some fn) :
    (name, fn) ∈ commands := by
  obtain ⟨⟨name', fn'⟩, hfind, rfl⟩ := Option.map_eq_some_iff.mp h
  have hmem := List.mem_of_find?_eq_some hfind
  have hname : name' = name := by simpa using List.find?_some hfind
  rwa [hname] at hmem

theorem alone_nameless (host : Host) (shell : Shell) (hpath : cmd.path = none) :
    alone host shell cmd = (shell, .crashed) := by
  have hnone : isBuiltin cmd.path = none := by simp only [hpath, isBuiltin, Option.map_none]
  simp only [alone, hnone]

/-- A builtin that is last in its queue is called with its arguments. -/
theorem executeCommand_builtin (host : Host) (shell : Shell) {name : CString}
    {args : List CString} {fn : Builtin} (hargv : cmd.argv = some (name :: args))
    (hfind : findBuiltin name = some fn) :
    executeCommand host shell cmd =
      match fn host.directories shell args with
      | .returned _ printed shell => .returned 0 shell printed []
      | .exited printed => .exited printed
      | .crashed => .crashed := by
  cases hfn : fn host.directories shell args <;>
    simp only [executeCommand, executeBuiltinCommand, hargv, hfind, Option.map_some, hfn]

/-- `getcwd` always has a path for the buffer of `pwd`. -/
def Directories.Known (dirs : Directories) : Prop := ∀ dir, dirs.getcwd dir bufSize ≠ none

/-- A command with a name that does not act on the shell leaves it as it is. -/
theorem alone_idle (hknown : host.directories.Known) (shell : Shell) (hformed : cmd.Formed words)
    (hpath : cmd.path ≠ none) (hidle : ¬ cmd.ActsOnShell) :
    alone host shell cmd = (shell, .returned (0, [])) := by
  cases words with
  | nil => exact absurd hformed.path hpath
  | cons name args =>
    have hname : cmd.path = some name := hformed.path
    rw [alone, hname, isBuiltin, Option.map_some]
    cases hfind : findBuiltin name with
    | none => rfl
    | some fn =>
      have hacts : name ∉ shellNames := fun hmem => hidle ⟨name, hmem, hname⟩
      rw [Option.isSome_some, executeCommand_builtin host shell hformed.argv hfind]
      have hmem := findBuiltin_mem hfind
      rcases commands_cases hmem with ⟨rfl, rfl⟩ | ⟨rfl, rfl⟩ | ⟨rfl, rfl⟩ | ⟨rfl, rfl⟩ |
        ⟨rfl, rfl⟩ | ⟨rfl, rfl⟩ | ⟨rfl, rfl⟩
      · exact absurd (by decide) hacts
      · exact absurd (by decide) hacts
      · rfl
      · exact absurd (by decide) hacts
      · exact absurd (by decide) hacts
      · obtain ⟨dir, hdir⟩ := Option.ne_none_iff_exists'.mp (hknown shell.cwd)
        simp only [cmdPwd, hdir]
        rfl
      · exact absurd (by decide) hacts

/-- The command, last in its queue, ends the shell on a NULL string. -/
def Command.CrashesShell (cmd : Command) : Prop :=
  cmd.path = none ∨ cmd.argv = some [bytes "export"]

/-- The calls of builtins that end on NULL: `export` without an argument, and `pwd` where `getcwd`
fails. -/
theorem builtin_crashes_iff (dirs : Directories) (shell : Shell) {name : CString}
    {args : List CString} {fn : Builtin} (hmem : (name, fn) ∈ commands) :
    fn dirs shell args = .crashed ↔ name = bytes "export" ∧ args = [] ∨
      name = bytes "pwd" ∧ dirs.getcwd shell.cwd bufSize = none := by
  have hother : name ≠ bytes "export" → name ≠ bytes "pwd" →
      ¬ (name = bytes "export" ∧ args = [] ∨
        name = bytes "pwd" ∧ dirs.getcwd shell.cwd bufSize = none) := by
    rintro hexport hpwd (⟨hname, _⟩ | ⟨hname, _⟩)
    · exact hexport hname
    · exact hpwd hname
  rcases commands_cases hmem with ⟨rfl, rfl⟩ | ⟨rfl, rfl⟩ | ⟨rfl, rfl⟩ | ⟨rfl, rfl⟩ | ⟨rfl, rfl⟩ |
    ⟨rfl, rfl⟩ | ⟨rfl, rfl⟩
  · exact iff_of_false (by simp [cmdAlias]) (hother (by decide) (by decide))
  · refine iff_of_false ?_ (hother (by decide) (by decide))
    rw [cmdCd]
    split <;> simp
  · exact iff_of_false (by simp [cmdEcho]) (hother (by decide) (by decide))
  · exact iff_of_false (by simp [cmdExit]) (hother (by decide) (by decide))
  · have hpwd : bytes "export" ≠ bytes "pwd" := by decide
    cases args with
    | nil => exact iff_of_true rfl (.inl ⟨rfl, rfl⟩)
    | cons word args =>
      refine iff_of_false ?_ (by simp [hpwd])
      simp only [cmdExport]
      split <;> simp
  · have hexport : bytes "pwd" ≠ bytes "export" := by decide
    rw [cmdPwd]
    cases hdir : dirs.getcwd shell.cwd bufSize with
    | none => exact iff_of_true rfl (.inr ⟨rfl, rfl⟩)
    | some dir => exact iff_of_false (by simp) (by simp [hexport])
  · exact iff_of_false (by simp [cmdUnalias]) (hother (by decide) (by decide))

theorem alone_crashed_iff (hknown : host.directories.Known) (shell : Shell)
    (hformed : cmd.Formed words) :
    (alone host shell cmd).2 = .crashed ↔ cmd.CrashesShell := by
  rw [Command.CrashesShell, hformed.argv, Option.some.injEq]
  cases words with
  | nil =>
    have hpath : cmd.path = none := hformed.path
    rw [alone_nameless host shell hpath]
    exact iff_of_true rfl (.inl hpath)
  | cons name args =>
    have hname : cmd.path = some name := hformed.path
    rw [alone, hname, isBuiltin, Option.map_some]
    cases hfind : findBuiltin name with
    | none =>
      refine iff_of_false (by simp) ?_
      rintro (hnone | hexport)
      · cases hnone
      · rw [(List.cons.inj hexport).1] at hfind
        revert hfind
        decide +kernel
    | some fn =>
      have hcrash : fn host.directories shell args = .crashed ↔ _ :=
        builtin_crashes_iff host.directories shell (findBuiltin_mem hfind)
      rw [or_iff_left fun h => hknown shell.cwd h.2] at hcrash
      rw [Option.isSome_some, executeCommand_builtin host shell hformed.argv hfind]
      dsimp only
      cases hdone : fn host.directories shell args with
      | returned status printed shell' =>
        rw [hdone] at hcrash
        simpa [Executed.ending] using hcrash
      | exited printed =>
        rw [hdone] at hcrash
        simpa [Executed.ending] using hcrash
      | crashed =>
        rw [hdone] at hcrash
        simpa [Executed.ending] using hcrash

/-- A command that crashes the shell leaves its state. -/
theorem alone_of_crashed (h : (alone host shell cmd).2 = .crashed) :
    alone host shell cmd = (shell, .crashed) := by
  rw [alone] at h ⊢
  cases hbuiltin : isBuiltin cmd.path with
  | none => rfl
  | some builtin =>
    rw [hbuiltin] at h
    cases builtin with
    | false => cases h
    | true =>
      dsimp only at h ⊢
      cases hdone : executeCommand host shell cmd with
      | returned status shell' printed errors => simp [hdone, Executed.ending] at h
      | exited printed => simp [hdone, Executed.ending] at h
      | crashed => rfl
      | replaced => simp [hdone, Executed.ending] at h

theorem alone_value {value : Int × Queue} (h : (alone host shell cmd).2 = .returned value) :
    value = (0, []) := by
  rw [alone] at h
  cases hbuiltin : isBuiltin cmd.path with
  | none => simp [hbuiltin] at h
  | some builtin =>
    rw [hbuiltin] at h
    cases builtin with
    | false =>
      cases h
      rfl
    | true =>
      exact Executed.ending_value h

theorem eachAlone_singleton (host : Host) (shell : Shell) (cmd : Command) :
    eachAlone host shell [cmd] = alone host shell cmd := by
  rw [eachAlone]
  cases hdone : alone host shell cmd with
  | mk shell' ending =>
    cases ending with
    | returned value =>
      have hending : (alone host shell cmd).2 = .returned value := by rw [hdone]
      have hvalue := alone_value hending
      rw [hvalue]
      rfl
    | exited => rfl
    | replaced => rfl
    | crashed => rfl

/-- Commands that leave the shell as it is come first. -/
theorem eachAlone_append {front : Queue} (queue : Queue)
    (hidle : ∀ cmd ∈ front, alone host shell cmd = (shell, .returned (0, []))) :
    eachAlone host shell (front ++ queue) = eachAlone host shell queue := by
  induction front with
  | nil => rfl
  | cons cmd front ih =>
    rw [List.cons_append, eachAlone, hidle cmd List.mem_cons_self]
    exact ih fun cmd' hcmd' => hidle cmd' (List.mem_cons_of_mem _ hcmd')

/-- The runs on one-command queues do to the shell what each command does alone. -/
theorem executeEach_eachAlone (stack : Stack) (hhost : host.Succeeds) (h : Listed q)
    (hw : w.process = none) :
    (executeEach host.system stack q w).1.memory.shell = (eachAlone host w.memory.shell q).1 ∧
      (executeEach host.system stack q w).2 = (eachAlone host w.memory.shell q).2 := by
  induction q generalizing w with
  | nil => exact ⟨rfl, rfl⟩
  | cons cmd q ih =>
    obtain ⟨w', final, hrun, hshell, hprocess, _⟩ := execute_listed (k := 0) stack hhost
      (h.singleton List.mem_cons_self) rfl rfl hw
    rw [executeEach, hrun, eachAlone]
    cases hdone : alone host w.memory.shell cmd with
    | mk shell' ending =>
      rw [hdone] at hshell
      cases ending with
      | returned value =>
        obtain ⟨hshell', hending'⟩ := ih h.tail hprocess
        rw [hshell] at hshell' hending'
        exact ⟨hshell', hending'⟩
      | exited => exact ⟨hshell, rfl⟩
      | replaced => exact ⟨hshell, rfl⟩
      | crashed => exact ⟨hshell, rfl⟩

/-! The two runs compared. -/

/-- The shell when it calls the executor. -/
def shellWorld (files : JobFiles) (memory : Memory) : JobWorld where
  files := files
  memory := memory
  process := none
  trace := []

/-- The whole queue has the effect of its commands one at a time, and the builtins that act on the
shell start in no other process. -/
structure Composes (host : Host) (stack : Stack) (q : Queue) (w : JobWorld) : Prop where
  shell : (run host.system (executeCommandsInQueue stack q) w).1.memory.shell =
    (executeEach host.system stack q w).1.memory.shell
  ending : (run host.system (executeCommandsInQueue stack q) w).2 =
    (executeEach host.system stack q w).2
  inShell : ∀ start ∈ starts (run host.system (executeCommandsInQueue stack q) w).1,
    start.command.ActsOnShell → start.process = none

theorem builtin_of_acts (h : cmd.ActsOnShell) : isBuiltin cmd.path = some true := by
  obtain ⟨name, hmem, hname⟩ := h
  have hall : ∀ name ∈ shellNames, isBuiltin (some name) = some true := by decide +kernel
  rw [hname]
  exact hall name hmem

/-- A command without a name crashes the shell when it comes alone, wherever it stands. -/
theorem eachAlone_nameless {front : Queue} (hknown : host.directories.Known) (queue : Queue)
    (hformed : ∀ cmd ∈ front, ∃ words, cmd.Formed words)
    (hidle : ∀ cmd ∈ front, ¬ cmd.ActsOnShell) (hnameless : ∃ cmd ∈ front, cmd.path = none) :
    eachAlone host shell (front ++ queue) = (shell, .crashed) := by
  induction front with
  | nil =>
    obtain ⟨cmd, hmem, _⟩ := hnameless
    cases hmem
  | cons cmd front ih =>
    rw [List.cons_append, eachAlone]
    by_cases hpath : cmd.path = none
    · rw [alone_nameless host shell hpath]
    · obtain ⟨words, hwords⟩ := hformed cmd List.mem_cons_self
      rw [alone_idle hknown shell hwords hpath (hidle cmd List.mem_cons_self)]
      apply ih
      · intro cmd' hcmd'
        exact hformed cmd' (List.mem_cons_of_mem _ hcmd')
      · intro cmd' hcmd'
        exact hidle cmd' (List.mem_cons_of_mem _ hcmd')
      · obtain ⟨cmd', hcmd', hpath'⟩ := hnameless
        rcases List.mem_cons.mp hcmd' with rfl | hcmd'
        · exact absurd hpath' hpath
        · exact ⟨cmd', hcmd', hpath'⟩

theorem getElem?_front {front : Queue} (hi : i + 1 < (front ++ [last]).length)
    (hcmd : (front ++ [last])[i]? = some cmd) : cmd ∈ front := by
  rw [List.length_append, List.length_singleton] at hi
  rw [List.getElem?_append_left (by omega)] at hcmd
  exact List.mem_of_getElem? hcmd

theorem exists_getElem?_front {front : Queue} (last : Command) (hmem : cmd ∈ front) :
    ∃ i, i + 1 < (front ++ [last]).length ∧ (front ++ [last])[i]? = some cmd := by
  obtain ⟨i, hcmd⟩ := List.getElem?_of_mem hmem
  have hlt := (List.getElem?_eq_some_iff.mp hcmd).1
  refine ⟨i, ?_, ?_⟩
  · rw [List.length_append, List.length_singleton]
    omega
  · rwa [List.getElem?_append_left hlt]

/-- The commands before the last start in children, the last one perhaps in the shell. -/
theorem listed_inShell_iff {front : Queue} (hhost : host.Succeeds) (stack : Stack)
    (h : Listed (front ++ [last])) (files : JobFiles) (memory : Memory) :
    (∀ start ∈ starts (run host.system (executeCommandsInQueue stack (front ++ [last]))
        (shellWorld files memory)).1, start.command.ActsOnShell → start.process = none) ↔
      ∀ cmd ∈ front, ¬ cmd.ActsOnShell := by
  obtain ⟨w', final, hrun, _, _, hstarts, hfinal⟩ := execute_listed (k := front.length) stack hhost
    h List.getElem?_concat_length (by simp) (w := shellWorld files memory) rfl
  have hnone : starts (shellWorld files memory) = [] := rfl
  rw [hrun, hstarts, hnone, List.nil_append]
  constructor
  · intro hall cmd hmem hacts
    obtain ⟨i, hi, hcmd⟩ := exists_getElem?_front last hmem
    rw [List.length_append, List.length_singleton] at hi
    have hstart := (mem_startsAt hhost (k := front.length)
      (t := entry stack (front ++ [last]) files)).mpr ⟨i, cmd, by omega, hcmd, rfl⟩
    cases hall _ (List.mem_append_left _ hstart) hacts
  · intro hall start hmem hacts
    rcases List.mem_append.mp hmem with hmem | hmem
    · obtain ⟨i, cmd, hi, hcmd, rfl⟩ := (mem_startsAt hhost).mp hmem
      refine absurd hacts (hall cmd (getElem?_front ?_ hcmd))
      rw [List.length_append, List.length_singleton]
      omega
    · obtain ⟨hlast, hprocess | hbuiltin⟩ := hfinal start hmem
      · exact hprocess
      · rw [hlast] at hacts
        cases hbuiltin.symm.trans (builtin_of_acts hacts)

/-- A list has the effect of its commands one at a time exactly when none but the last acts on the
shell, and one without a name stands before the last only if the last crashes the shell too. -/
theorem execute_composes_iff (host : Host) (hhost : host.Succeeds)
    (hknown : host.directories.Known) (stack : Stack) (q : Queue) (h : Listed q)
    (files : JobFiles) (memory : Memory) :
    Composes host stack q (shellWorld files memory) ↔
      (∀ i cmd, i + 1 < q.length → q[i]? = some cmd → ¬ cmd.ActsOnShell) ∧
      ∀ i cmd last, i + 1 < q.length → q[i]? = some cmd → cmd.path = none →
        q[q.length - 1]? = some last → last.CrashesShell := by
  rcases List.eq_nil_or_concat q with rfl | ⟨front, last, rfl⟩
  · refine iff_of_true ⟨rfl, rfl, fun start hstart => by cases hstart⟩ ⟨?_, ?_⟩
    · intro i cmd hi
      exact absurd hi (Nat.not_lt_zero _)
    · intro i cmd last hi
      exact absurd hi (Nat.not_lt_zero _)
  rw [List.concat_eq_append] at h ⊢
  have hlast : (front ++ [last])[(front ++ [last]).length - 1]? = some last := by simp
  obtain ⟨words, hwords⟩ := h.formed last (List.mem_append_right _ (List.mem_singleton_self last))
  have hformed : ∀ cmd ∈ front, ∃ words, cmd.Formed words := fun cmd hmem =>
    h.formed cmd (List.mem_append_left _ hmem)
  obtain ⟨w', final, hrun, hshell, _⟩ := execute_listed (k := front.length) stack hhost
    h List.getElem?_concat_length (by simp) (w := shellWorld files memory) rfl
  obtain ⟨heach, heach'⟩ := executeEach_eachAlone stack hhost h (w := shellWorld files memory) rfl
  have hinShell := listed_inShell_iff hhost stack h files memory
  constructor
  · rintro ⟨_, hending, hstarts⟩
    have hidle := hinShell.mp hstarts
    refine ⟨fun i cmd hi hcmd => hidle cmd (getElem?_front hi hcmd),
      fun i cmd last' hi hcmd hpath hlast' => ?_⟩
    cases hlast.symm.trans hlast'
    rw [hrun, heach', eachAlone_nameless hknown [last] hformed hidle
      ⟨cmd, getElem?_front hi hcmd, hpath⟩] at hending
    exact (alone_crashed_iff hknown _ hwords).mp hending
  · rintro ⟨hacts, hnameless⟩
    have hidle : ∀ cmd ∈ front, ¬ cmd.ActsOnShell := by
      intro cmd hmem
      obtain ⟨i, hi, hcmd⟩ := exists_getElem?_front last hmem
      exact hacts i cmd hi hcmd
    have hsame : eachAlone host memory.shell (front ++ [last]) = alone host memory.shell last := by
      by_cases hnone : ∃ cmd ∈ front, cmd.path = none
      · obtain ⟨cmd, hmem, hpath⟩ := hnone
        obtain ⟨i, hi, hcmd⟩ := exists_getElem?_front last hmem
        have hcrashes := hnameless i cmd last hi hcmd hpath hlast
        rw [eachAlone_nameless hknown [last] hformed hidle ⟨cmd, hmem, hpath⟩,
          alone_of_crashed ((alone_crashed_iff hknown memory.shell hwords).mpr hcrashes)]
      · rw [eachAlone_append [last], eachAlone_singleton]
        intro cmd hmem
        obtain ⟨words', hwords'⟩ := hformed cmd hmem
        exact alone_idle hknown memory.shell hwords' (fun hpath => hnone ⟨cmd, hmem, hpath⟩)
          (hidle cmd hmem)
    refine ⟨?_, ?_, hinShell.mpr hidle⟩
    · rw [hrun, heach]
      exact hshell.trans (congrArg Prod.fst hsame.symm)
    · rw [hrun, heach']
      exact congrArg Prod.snd hsame.symm

/-- A command of these words, with the mark of its connection. -/
def commandOf (addr : Nat) (words : List CString) (mask : Connection) : Command where
  addr := addr
  path := words.head?
  argv := some words
  redirectToPath := none
  redirectFromPath := none
  connectionMask := mask

theorem willing_known : willing.directories.Known := fun _ => Option.some_ne_none _

/-- `ls; cd /` -/
theorem execute_composes_iff_cd :
    Composes willing zeroStack [commandOf 0 [bytes "ls"] .sequential,
        commandOf 1 [bytes "cd", bytes "/"] .none] (shellWorld terminal.files terminal.memory) ↔
      (∀ i cmd, i + 1 < 2 → [commandOf 0 [bytes "ls"] .sequential,
          commandOf 1 [bytes "cd", bytes "/"] .none][i]? = some cmd → ¬ cmd.ActsOnShell) ∧
      ∀ i cmd last, i + 1 < 2 → [commandOf 0 [bytes "ls"] .sequential,
          commandOf 1 [bytes "cd", bytes "/"] .none][i]? = some cmd → cmd.path = none →
        [commandOf 0 [bytes "ls"] .sequential,
          commandOf 1 [bytes "cd", bytes "/"] .none][2 - 1]? = some last → last.CrashesShell := by
  refine execute_composes_iff willing willing_succeeds willing_known zeroStack
    [commandOf 0 [bytes "ls"] .sequential, commandOf 1 [bytes "cd", bytes "/"] .none]
    ⟨?_, ?_, ?_, ?_⟩ terminal.files terminal.memory
  · intro cmd hmem
    rcases List.mem_pair.mp hmem with rfl | rfl
    · exact ⟨_, rfl, rfl⟩
    · exact ⟨_, rfl, rfl⟩
  · decide +kernel
  · decide +kernel
  · decide +kernel

/-- In `cd /tmp; ls` the shell stays where it is. -/
theorem execute_loses_cd :
    ¬ Composes willing zeroStack [commandOf 0 [bytes "cd", bytes "/tmp"] .sequential,
      commandOf 1 [bytes "ls"] .none] (shellWorld terminal.files terminal.memory) := by
  intro h
  have hcwd := congrArg Shell.cwd h.shell
  revert hcwd
  decide +kernel

end Redshell
