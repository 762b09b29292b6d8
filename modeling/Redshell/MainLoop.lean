import Redshell.Foreground
import Redshell.LineMeaning

/-! `run` of main.c, line after line, and the session it amounts to. -/
namespace Redshell

/-- `history_expand` of readline, from the lines in its history: the number it returns and the text
it makes, which is a C string. -/
structure Readline where
  result : List CString → CString → Int
  text : List CString → CString → CString
  plain : ∀ history line, (∀ c ∈ line, c ≠ 0) → ∀ c ∈ text history line, c ≠ 0

/-- Without history expansion. -/
def Readline.verbatim : Readline := ⟨fun _ _ => 0, fun _ line => line, fun _ _ h => h⟩

/-- What an iteration of `run` finds. -/
structure Console where
  history : List CString
  files : JobFiles
  memory : Memory

/-- What iterations leave, the commands started in them and how the last one ends. -/
structure Iteration where
  console : Console
  started : List (Option Nat × Nat × Command)
  ending : Ending Unit

/-- One iteration of `run`; the expansion of a line that fails or is only shown is printed. -/
def iteration (readline : Readline) (call : Call) (console : Console) : Iteration :=
  let result := readline.result console.history call.line
  let expansion := readline.text console.history call.line
  if result < 0 ∨ result = 2 then ⟨console, [], .returned ()⟩
  else
    match parseInput call.wordexp ⟨console.memory.shell.aliases, [], 0⟩ expansion with
    | .error _ => ⟨console, [], .crashed⟩
    | .ok r =>
      let history :=
        if 0 < r.queue.length then console.history ++ [expansion] else console.history
      let shell := { console.memory.shell with aliases := r.session.aliases }
      let done := runQueue call.host call.stack r.queue
        (shellWorld console.files { console.memory with shell := shell })
      ⟨⟨history, done.1.files, done.1.memory⟩, (starts done.1).map Start.told, done.2⟩

/-- The loop over the lines typed so far. -/
def mainLoop (readline : Readline) : List Call → Console → Iteration
  | [], console => ⟨console, [], .returned ()⟩
  | call :: calls, console =>
    let done := iteration readline call console
    match done.ending with
    | .returned _ =>
      let rest := mainLoop readline calls done.console
      { rest with started := done.started ++ rest.started }
    | _ => done

/-! A parse leaves the dictionary alone, whether it fails or not. -/

variable {wordexp : Wordexp} {ss ss' : Session} {d : Dictionary} {g : Complex} {addr : Nat}
  {mask : Connection} {u : CString} {queue : Queue} {pending : Option Pending} {c : UInt8}
  {first : Bool} {shell : Shell} {host : Host} {q : Queue} {cmd : Command} {i : Nat}
  {afterPipe : Bool} {readline : Readline} {call : Call} {console : Console}

theorem finish_aliases (hd : ss.aliases = d.toAliases) :
    (g.finish wordexp addr mask ss).2.aliases = d.toAliases := by
  have htmp := expandAliasIn_eq hd ((g.textOf .command).take bufSize)
  dsimp only [Complex.finish]
  rw [htmp]
  dsimp only [expandGlob, callWordexp]
  cases wordexp ss.calls.length
      (expandAlias d.toAliases ((g.textOf .command).take bufSize)).1 with
  | none => exact hd
  | some words =>
    dsimp only
    rw [(expandPart_snd _).1, (expandPart_snd _).1]
    exact hd

theorem flush_aliases (hd : ss.aliases = d.toAliases) :
    (flush wordexp pending ss).2.aliases = d.toAliases := by
  cases pending with
  | none => exact hd
  | some p =>
    have hfinish : (p.complex.finish wordexp p.addr p.mask ss).2.aliases = d.toAliases :=
      finish_aliases hd
    rw [flush]
    split
    · next heq => rwa [heq] at hfinish
    · next heq => rwa [heq] at hfinish

theorem readPiece_aliases {next : Complex → Nat → Queue → Session → Verdict}
    (hd : ss.aliases = d.toAliases)
    (hnext : ∀ g addr queue ss', ss'.aliases = d.toAliases →
      (next g addr queue ss').session.aliases = d.toAliases) :
    (readPiece wordexp pending c u queue ss next).session.aliases = d.toAliases := by
  have hflush : (flush wordexp pending ss).2.aliases = d.toAliases := flush_aliases hd
  rw [readPiece]
  split
  · exact hd
  · split
    · next heq => rwa [heq] at hflush
    · next heq =>
      rw [heq] at hflush
      split
      · exact hflush
      · exact hnext _ _ _ _ hflush

theorem endLine_aliases (hd : ss.aliases = d.toAliases) :
    (endLine wordexp first g addr queue ss).session.aliases = d.toAliases := by
  have hfinish : (g.finish wordexp addr g.mask ss).2.aliases = d.toAliases := finish_aliases hd
  rw [endLine]
  split
  · split
    · next heq => rwa [heq] at hfinish
    · next heq => rwa [heq] at hfinish
  · split
    · exact hd
    · exact hd

theorem interpret_aliases (rest : List (Connector × CString)) (hd : ss.aliases = d.toAliases) :
    (interpret wordexp rest first pending u queue ss).session.aliases = d.toAliases := by
  induction rest generalizing first pending u queue ss with
  | nil =>
    cases u with
    | nil => cases first <;> exact hd
    | cons c u => exact readPiece_aliases hd fun g addr queue ss' hd' => endLine_aliases hd'
  | cons p rest ih =>
    cases u with
    | nil => exact hd
    | cons c u =>
      refine readPiece_aliases hd fun g addr queue ss' hd' => ?_
      split
      · exact ih hd'
      · exact hd'

/-! What a shell does to its dictionary between two lines. -/

/-- The dictionary of the shell is one that `alias` and `unalias` can work on. -/
structure Shell.Sound (shell : Shell) : Prop where
  valid : shell.aliases.Valid
  released : shell.aliases.Released

def Shell.Sound.dictionary (h : shell.Sound) : Dictionary := ⟨shell.aliases, h.valid, h.released⟩

/-- A builtin that returns leaves the dictionary, or adds the alias of a word or removes one. -/
theorem builtin_shell {name : CString} {fn : Builtin} {dirs : Directories} {args : List CString}
    {status : Int} {printed : List UInt8} {shell' : Shell} (hfn : (name, fn) ∈ commands)
    (hret : fn dirs shell args = .returned status printed shell') :
    shell'.aliases = shell.aliases ∨
      (∃ word ∈ args, ∃ key value, splitAtEquals word = some (key, value) ∧
        shell' = { shell with aliases := addAlias shell.aliases key value }) ∨
      ∃ key, shell' = { shell with aliases := removeAlias shell.aliases key } := by
  obtain ⟨-, rfl⟩ | ⟨-, rfl⟩ | ⟨-, rfl⟩ | ⟨-, rfl⟩ | ⟨-, rfl⟩ | ⟨-, rfl⟩ | ⟨-, rfl⟩ :=
    commands_cases hfn
  · cases args with
    | nil =>
      cases hret
      exact .inl rfl
    | cons word args =>
      rw [cmdAlias, aliasWith] at hret
      split at hret
      · cases hret
        exact .inl rfl
      · next hsplit =>
        cases hret
        exact .inr (.inl ⟨word, List.mem_cons_self, _, _, hsplit, rfl⟩)
  · rw [cmdCd] at hret
    split at hret <;> cases hret <;> exact .inl rfl
  · cases hret
    exact .inl rfl
  · cases hret
  · cases args with
    | nil => cases hret
    | cons word args =>
      rw [cmdExport] at hret
      split at hret
      · cases hret
        exact .inl rfl
      · cases hret
        rw [setenv]
        split <;> exact .inl rfl
  · rw [cmdPwd] at hret
    split at hret <;> cases hret
    exact .inl rfl
  · cases args with
    | nil =>
      cases hret
      exact .inl rfl
    | cons word args =>
      cases hret
      exact .inr (.inr ⟨_, rfl⟩)

/-- A command executed in the shell leaves the dictionary, or adds the alias of a word or removes
one. -/
theorem executeCommand_shell (host : Host) (shell : Shell) (cmd : Command) :
    ((executeCommand host shell cmd).shell shell).aliases = shell.aliases ∨
      (∃ word ∈ cmd.argv.getD [], ∃ key value, splitAtEquals word = some (key, value) ∧
        (executeCommand host shell cmd).shell shell =
          { shell with aliases := addAlias shell.aliases key value }) ∨
      ∃ key, (executeCommand host shell cmd).shell shell =
        { shell with aliases := removeAlias shell.aliases key } := by
  rw [executeCommand]
  split
  · next done hdone =>
    unfold executeBuiltinCommand at hdone
    split at hdone
    · cases hdone
      exact .inl rfl
    · cases hdone
      exact .inl rfl
    · next args hargv =>
      obtain ⟨fn, hfind, rfl⟩ := Option.map_eq_some_iff.mp hdone
      split
      · next hret =>
        rcases builtin_shell (findBuiltin_mem hfind) hret with
          hsame | ⟨word, hmem, hadded⟩ | hremoved
        · exact .inl hsame
        · refine .inr (.inl ⟨word, ?_, hadded⟩)
          rw [hargv]
          exact List.mem_cons_of_mem _ hmem
        · exact .inr (.inr hremoved)
      · exact .inl rfl
      · exact .inl rfl
  · split
    · exact .inl rfl
    · exact .inl rfl

theorem carryOut_shell (host : Host) (shell : Shell) (i : Nat) (afterPipe : Bool) (q : Queue) :
    (carryOut host shell i afterPipe q).shell = shell ∨
      ∃ cmd ∈ q, (carryOut host shell i afterPipe q).shell =
        (executeCommand host shell cmd).shell shell := by
  induction q generalizing i afterPipe with
  | nil => exact .inl rfl
  | cons cmd queue ih =>
    rw [carryOut]
    split
    · exact .inl rfl
    · split
      · rcases ih (i + 1) (cmd.connectionMask == .pipe) with hsame | ⟨each, hmem, heq⟩
        · exact .inl hsame
        · exact .inr ⟨each, List.mem_cons_of_mem _ hmem, heq⟩
      · split
        · exact .inl rfl
        · exact .inl rfl
        · exact .inr ⟨cmd, List.mem_cons_self, rfl⟩

theorem Shell.Sound.carryOut (h : shell.Sound) (host : Host) (q : Queue) :
    (carryOut host shell i afterPipe q).shell.Sound := by
  rcases carryOut_shell host shell i afterPipe q with heq | ⟨cmd, -, heq⟩
  · rwa [heq]
  · rw [heq]
    rcases executeCommand_shell host shell cmd with
      hsame | ⟨_, -, key, value, -, hshell⟩ | ⟨key, hshell⟩
    · exact ⟨hsame ▸ h.valid, hsame ▸ h.released⟩
    · rw [hshell]
      exact ⟨addAlias_valid h.valid key value, addAlias_released h.valid h.released⟩
    · rw [hshell]
      exact ⟨removeAlias_valid h.valid key, removeAlias_released h.valid h.released⟩

/-! The session: no descriptors, pipes and processes, and no parser tables. -/

/-- What is left of a console, the commands started and how it ends. -/
structure Talk where
  history : List CString
  shell : Shell
  started : List (Option Nat × Nat × Command)
  ending : Ending Unit

/-- What a line typed means: its expansion is recorded if it queues a command, and carried out. -/
def tell (readline : Readline) (call : Call) (history : List CString) (shell : Shell) : Talk :=
  let text := readline.text history call.line
  if readline.result history call.line < 0 ∨ readline.result history call.line = 2 then
    ⟨history, shell, [], .returned ()⟩
  else
    let q := (interpretLine call.wordexp ⟨shell.aliases, [], 0⟩ text).queue
    let effect := carryOut call.host shell 0 false q
    ⟨if q = [] then history else history ++ [text], effect.shell, effect.started, effect.ending⟩

def tellAll (readline : Readline) : List Call → List CString → Shell → Talk
  | [], history, shell => ⟨history, shell, [], .returned ()⟩
  | call :: calls, history, shell =>
    let told := tell readline call history shell
    match told.ending with
    | .returned _ =>
      let rest := tellAll readline calls told.history told.shell
      { rest with started := told.started ++ rest.started }
    | _ => told

def Iteration.talk (done : Iteration) : Talk :=
  ⟨done.console.history, done.console.memory.shell, done.started, done.ending⟩

/-- An iteration whose line is executed. -/
theorem iteration_executed (h : console.memory.shell.Sound)
    (hresult : ¬ (readline.result console.history call.line < 0 ∨
      readline.result console.history call.line = 2)) :
    let text := readline.text console.history call.line
    let q := (interpretLine call.wordexp ⟨console.memory.shell.aliases, [], 0⟩ text).queue
    let done := runQueue call.host call.stack q (shellWorld console.files console.memory)
    iteration readline call console =
      ⟨⟨if q = [] then console.history else console.history ++ [text],
        done.1.files, done.1.memory⟩, (starts done.1).map Start.told, done.2⟩ := by
  obtain ⟨r, hr, hqueue, hsession, _⟩ :=
    parseInput_spec call.wordexp ⟨console.memory.shell.aliases, [], 0⟩
      (readline.plain console.history call.line call.plain)
  have haliases : r.session.aliases = console.memory.shell.aliases := by
    rw [hsession]
    exact interpret_aliases (d := h.dictionary) _ rfl
  have hhistory : ∀ text : CString,
      (if 0 < r.queue.length then console.history ++ [text] else console.history) =
        if r.queue = [] then console.history else console.history ++ [text] := by
    intro text
    cases r.queue with
    | nil => rfl
    | cons cmd queue => rfl
  rw [iteration, if_neg hresult]
  dsimp only
  rw [hr]
  dsimp only
  rw [haliases, hhistory, hqueue]

theorem iteration_talk (readline : Readline) (call : Call) (h : console.memory.shell.Sound) :
    (iteration readline call console).talk =
      tell readline call console.history console.memory.shell := by
  by_cases hresult : readline.result console.history call.line < 0 ∨
      readline.result console.history call.line = 2
  · rw [iteration, if_pos hresult, tell, if_pos hresult]
    rfl
  · have hdone := iteration_executed h hresult
    dsimp only at hdone
    rw [hdone, tell, if_neg hresult, Iteration.talk]
    obtain ⟨hshell, hstarted, hending⟩ := runQueue_carriesOut call.host call.stack
      (interpretLine call.wordexp ⟨console.memory.shell.aliases, [], 0⟩
        (readline.text console.history call.line)).queue console.files console.memory
    dsimp only
    rw [hshell, hstarted, hending]

theorem tell_sound (readline : Readline) (call : Call) (history : List CString) (h : shell.Sound) :
    (tell readline call history shell).shell.Sound := by
  rw [tell]
  split
  · exact h
  · exact h.carryOut call.host _

/-- The loop over any lines does to the history and the shell what the session says, starts the
same commands and ends the same way. -/
theorem mainLoop_tells (readline : Readline) (calls : List Call) (console : Console)
    (h : console.memory.shell.Sound) :
    (mainLoop readline calls console).talk =
      tellAll readline calls console.history console.memory.shell := by
  induction calls generalizing console with
  | nil => rfl
  | cons call calls ih =>
    have hdone := iteration_talk readline call h
    have hsound := tell_sound readline call console.history h
    rw [mainLoop, tellAll, ← hdone]
    rw [← hdone] at hsound
    generalize iteration readline call console = done at hsound
    obtain ⟨console', started, ending⟩ := done
    cases ending with
    | returned value =>
      have hrest := ih console' hsound
      dsimp only [Iteration.talk] at hrest ⊢
      rw [← hrest]
    | exited => rfl
    | replaced => rfl
    | crashed => rfl

/-- `ls | wc`, then `cd /`. -/
theorem mainLoop_tells_ls :
    (mainLoop .verbatim [pipeCall willing, cdCall willing]
        ⟨[], terminal.files, terminal.memory⟩).talk =
      tellAll .verbatim [pipeCall willing, cdCall willing] [] terminal.memory.shell :=
  mainLoop_tells _ _ _ ⟨Dictionary.empty.valid, Dictionary.empty.released⟩

end Redshell
