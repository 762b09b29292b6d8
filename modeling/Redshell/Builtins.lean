import Redshell.Alias

/-! The builtin commands of builtins.c, on the state of the process that runs them. -/
namespace Redshell

/-- What a builtin can change in the process that runs it. -/
structure Shell where
  cwd : CString
  env : CString → Option CString
  aliases : Aliases

/-- How a call ends: with a status and what it printed, in `exit`, or on a NULL string. -/
inductive Outcome where
  | returned (status : Int) (printed : List UInt8) (shell : Shell)
  | exited (printed : List UInt8)
  | crashed

/-- The calls about the current directory: `chdir` gives the directory that a path names from
another one, if it can be entered; `getcwd` what it stores for a directory in a buffer of so many
bytes, none for NULL. -/
structure Directories where
  chdir : CString → CString → Option CString
  getcwd : CString → Nat → Option CString

/-- A builtin gets the words after its name, NULL-terminated. -/
abbrev Builtin := Directories → Shell → List CString → Outcome

def echoWords : List CString → List UInt8
  | [] => []
  | [word] => word
  | word :: argv => word ++ bytes " " ++ echoWords argv

def cmdEcho : Builtin := fun _ shell argv =>
  .returned 0 (echoWords argv ++ bytes "\n") shell

/-- `setenv(key, value, 1)` refuses the empty name. -/
def setenv (shell : Shell) (key value : CString) : Int × Shell :=
  if key = [] then (-1, shell)
  else (0, { shell with env := Function.update shell.env key (some value) })

/-- The two sides of the first `=`, when there is one. -/
def splitAtEquals (word : CString) : Option (CString × CString) :=
  (strstr word isEquals).map fun value => (strncpy word (word.length - value.length), value.tail)

/-- Without an argument, `strdup` gets NULL. -/
def cmdExport : Builtin := fun _ shell argv =>
  match argv with
  | [] => .crashed
  | word :: _ =>
    match splitAtEquals word with
    | none => .returned (-1) [] shell
    | some (key, value) =>
      let set := setenv shell key value
      .returned set.1 [] set.2

/-- The `printf` of a string and a newline is a `puts`, which follows a NULL from `getcwd`. -/
def cmdPwd : Builtin := fun dirs shell _ =>
  match dirs.getcwd shell.cwd bufSize with
  | some dir => .returned 0 (dir ++ bytes "\n") shell
  | none => .crashed

/-- The path `cd` takes: its argument, else HOME, which may be NULL. -/
def cdPath (shell : Shell) (argv : List CString) : Option CString :=
  match argv with
  | path :: _ => some path
  | [] => shell.env (bytes "HOME")

/-- `chdir` of NULL fails. -/
def cmdCd : Builtin := fun dirs shell argv =>
  match (cdPath shell argv).bind (dirs.chdir shell.cwd) with
  | some dir => .returned 0 [] { shell with cwd := dir }
  | none => .returned (-1) [] shell

def cmdExit : Builtin := fun _ _ _ => .exited (bytes "Bye!\n")

/-- The status, what is printed, and the dictionary after `alias`. -/
def aliasWith (st : Aliases) (argv : List CString) : Int × List UInt8 × Aliases :=
  match argv with
  | [] => (0, printAliases st, st)
  | word :: _ =>
    match splitAtEquals word with
    | none => (-1, [], st)
    | some (key, value) => (0, [], addAlias st key value)

def cmdAlias : Builtin := fun _ shell argv =>
  let done := aliasWith shell.aliases argv
  .returned done.1 done.2.1 { shell with aliases := done.2.2 }

/-- The status and the dictionary after `unalias`. -/
def unaliasWith (st : Aliases) (argv : List CString) : Int × Aliases :=
  match argv with
  | [] => (-1, st)
  | word :: _ => (0, removeAlias st word)

def cmdUnalias : Builtin := fun _ shell argv =>
  let done := unaliasWith shell.aliases argv
  .returned done.1 [] { shell with aliases := done.2 }

/-- The array `commands` of builtins.h. -/
def commands : List (CString × Builtin) :=
  [(bytes "alias", cmdAlias),
   (bytes "cd", cmdCd),
   (bytes "echo", cmdEcho),
   (bytes "exit", cmdExit),
   (bytes "export", cmdExport),
   (bytes "pwd", cmdPwd),
   (bytes "unalias", cmdUnalias)]

/-- The function of the first entry with this name. -/
def findBuiltin (name : CString) : Option Builtin :=
  (commands.find? fun p => p.1 == name).map (·.2)

theorem commands_cases {name : CString} {fn : Builtin} (h : (name, fn) ∈ commands) :
    name = bytes "alias" ∧ fn = cmdAlias ∨ name = bytes "cd" ∧ fn = cmdCd ∨
      name = bytes "echo" ∧ fn = cmdEcho ∨ name = bytes "exit" ∧ fn = cmdExit ∨
      name = bytes "export" ∧ fn = cmdExport ∨ name = bytes "pwd" ∧ fn = cmdPwd ∨
      name = bytes "unalias" ∧ fn = cmdUnalias := by
  simpa only [commands, List.mem_cons, Prod.mk.injEq, List.not_mem_nil, or_false] using h

/-- `strcmp` gets NULL when there is no name. -/
def isBuiltin (cmd : Option CString) : Option Bool :=
  cmd.map fun name => (findBuiltin name).isSome

variable {word key value : CString}

theorem splitAtEquals_eq (word : CString) :
    splitAtEquals word =
      if Cut.onward isEquals word = [] then none
      else some (Cut.before isEquals word, (Cut.onward isEquals word).tail) := by
  unfold splitAtEquals
  cases hp : strstr word isEquals with
  | none => simp [strstr_eq_none_iff.mp hp]
  | some ptr =>
    obtain ⟨ho, hne⟩ := strstr_eq_some_iff.mp hp
    simp only [Option.map_some, ← ho]
    rw [if_neg (by rwa [ho]), strncpy, Cut.take_sub_onward]

end Redshell
