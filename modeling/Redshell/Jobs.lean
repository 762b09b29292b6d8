import Redshell.Builtins
import Redshell.Command
import Redshell.Process

/-! The executor of jobs.c: a program of system calls for every queue of commands. -/
namespace Redshell

/-- An `open` of `executeCommandsInQueue`: for the input or output of which command. -/
structure Redirection where
  command : Nat
  output : Bool
  path : CString
  deriving DecidableEq

/-- Why `execvp` failed: whether `errno` is ENOENT, and its `strerror` text. -/
structure ExecError where
  noEntry : Bool
  message : List UInt8

/-- What the system decides: the files that open, the pid of every command's child, the calls about
the current directory, and the commands whose `execvp` fails. -/
structure Host where
  opens : Redirection → Bool
  forks : Nat → Option ℕ+
  directories : Directories
  execvp : Command → Option ExecError

/-- How `executeCommand` ends; `replaced` is a program started by `execvp`. -/
inductive Executed where
  | returned (status : Int) (shell : Shell) (printed errors : List UInt8)
  | exited (printed : List UInt8)
  | crashed
  | replaced

/-- `_executeBuiltinCommand`, none when it returns -1; `strcmp` gets `*cmd`, which may be NULL. -/
def executeBuiltinCommand (dirs : Directories) (shell : Shell) (argv : Option (List CString)) :
    Option Executed :=
  match argv with
  | none | some [] => some .crashed
  | some (name :: args) =>
    (findBuiltin name).map fun fn =>
      match fn dirs shell args with
      | .returned _ printed shell => .returned 0 shell printed []
      | .exited printed => .exited printed
      | .crashed => .crashed

/-- `perror` prints its argument unless it is NULL or empty. -/
def perror (s : Option CString) (message : List UInt8) : List UInt8 :=
  match s with
  | none | some [] => message ++ bytes "\n"
  | some s => s ++ bytes ": " ++ message ++ bytes "\n"

def executeCommand (host : Host) (shell : Shell) (cmd : Command) : Executed :=
  match executeBuiltinCommand host.directories shell cmd.argv with
  | some done => done
  | none =>
    match host.execvp cmd with
    | none => .replaced
    | some error =>
      let errors :=
        if error.noEntry then cmd.path.getD (bytes "(null)") ++ bytes ": command not found\n"
        else perror cmd.path error.message
      .returned (-1) shell [] errors

/-- The uninitialised arrays of `executeCommandsInQueue`. -/
inductive Arr where
  | pipes
  | launched
  deriving DecidableEq

/-- The steps of the executor that are no system calls; an array access only leaves its mark. -/
inductive Routine where
  | execute (i : Nat) (cmd : Command)
  | free (cmd : Command)
  | setFgPid (pid : Int)
  | report (path : CString)
  | store (array : Arr) (j : Int)
  | load (array : Arr) (j : Int)
  deriving DecidableEq

/-- What the executor's routines can change in the process that runs them. -/
structure Memory where
  shell : Shell
  fgPid : Int

def Host.perform (host : Host) : Routine → Memory → Performed Memory
  | .execute _ cmd, m =>
    match executeCommand host m.shell cmd with
    | .returned status shell _ _ => .returned status { m with shell := shell }
    | .exited _ => .exited
    | .crashed => .crashed
    | .replaced => .replaced
  | .setFgPid pid, m => .returned 0 { m with fgPid := pid }
  | _, m => .returned 0 m

/-- The calls for new descriptors that find free numbers: `dup` of which descriptor, and `pipe`
before which command for which pair of the array. -/
structure Supply where
  dups : Int → Bool
  pipes : Nat → Nat → Bool

/-- There is always a free number. -/
def unlimited : Supply := ⟨fun _ => true, fun _ _ => true⟩

def Host.systemIn (host : Host) (supply : Supply) : System Redirection Routine Memory where
  dups := supply.dups
  opens := host.opens
  pipes := supply.pipes
  forks := host.forks
  perform := host.perform

/-- The system where no `dup` or `pipe` fails. -/
abbrev Host.system (host : Host) : System Redirection Routine Memory := host.systemIn unlimited

abbrev Job := Prog Redirection Routine

/-- The number at every index of the two arrays, inside their bounds and outside, at the call. -/
structure Stack where
  pipes : Int → Int
  launched : Int → Int

/-- The local variables of `executeCommandsInQueue`. -/
structure Locals where
  nCommands : Nat
  i : Nat
  pipes : Int → Int
  fdIn : Int
  fdOut : Int
  stdinCopy : Int
  stdoutCopy : Int
  launched : Int → Int
  pid : Int
  lastCommand : Option Command

/-- The last command was there and is connected to this one by a pipe. -/
def Locals.afterPipe (l : Locals) : Bool :=
  l.lastCommand.any fun last => last.connectionMask == .pipe

def free (cmd : Command) : Job Unit := .call (.free cmd) fun _ => .ret ()

def queueFree : Queue → Job Unit
  | [] => pure ()
  | cmd :: queue => do
    free cmd
    queueFree queue

/-- `_closepipes` -/
def closepipes (pipes : Int → Int) : Nat → Job Unit
  | 0 => pure ()
  | count + 1 => do
    closepipes pipes count
    .call (.load .pipes count) fun _ => .close (pipes count) (.ret ())

/-- The wait before the next command and at the end. -/
def waitForLast (l : Locals) : Job Unit :=
  match l.lastCommand with
  | none => pure ()
  | some last =>
    if l.pid ≠ -1 ∧ last.connectionMask ≠ .pipe ∧ last.connectionMask ≠ .background then
      .waitpid l.pid (.ret ())
    else pure ()

def closeOpened (fd : Int) : Job Unit := if fd ≠ -1 then .close fd (.ret ()) else pure ()

def dupOpened (fd : Int) (stream : Nat) : Job Unit :=
  if fd ≠ -1 then .dup2 fd stream (.ret ()) else pure ()

/-- None for the `return -1` on a failed `open`. -/
def redirectInput (l : Locals) (cmd : Command) : Job (Option Locals) :=
  match cmd.redirectFromPath with
  | none => pure (some l)
  | some path => .openFile ⟨l.i, false, path⟩ fun fd =>
    if fd = -1 then .call (.report path) fun _ => .ret none
    else pure (some { l with fdIn := fd })

/-- On a failed `open`, what is closed is an input that was not opened. -/
def redirectOutput (l : Locals) (cmd : Command) : Job (Option Locals) :=
  match cmd.redirectToPath with
  | none => pure (some l)
  | some path => .openFile ⟨l.i, true, path⟩ fun fd =>
    if fd = -1 then .call (.report path) fun _ =>
      if l.fdIn = -1 then .close l.fdIn (.ret none) else pure none
    else pure (some { l with fdOut := fd })

/-- A pipe between each two commands of the queue; a `pipe` that fails stores nothing, and its
result is not looked at. -/
def makePipes (l : Locals) : Nat → Job Locals
  | 0 => pure l
  | count + 1 => do
    let l ← makePipes l count
    .pipe l.i count fun read write =>
      if read = -1 then .ret l
      else .call (.store .pipes (2 * count)) fun _ =>
        .call (.store .pipes (2 * count + 1)) fun _ =>
          .ret { l with
            pipes := Function.update (Function.update l.pipes (2 * count) read)
              (2 * count + 1) write }

def dupPipe (l : Locals) (j : Int) (stream : Nat) : Job Unit :=
  .call (.load .pipes j) fun _ => .dup2 (l.pipes j) stream (.ret ())

/-- The first command of a pipeline writes to the element 1. -/
def connectFirst (l : Locals) : Job Unit :=
  if ¬ l.afterPipe ∧ 1 < l.nCommands then dupPipe l 1 1 else pure ()

/-- The last command only reads from a pipe. -/
def connectRest (l : Locals) (cmd : Command) : Job Unit :=
  if cmd.connectionMask ≠ .pipe then
    if 1 < l.nCommands then dupPipe l (2 * ((l.i : Int) - 1)) 0 else pure ()
  else do
    dupPipe l (2 * ((l.i : Int) - 1)) 0
    dupPipe l (2 * (l.i : Int) + 1) 1

/-- The child of a piped command. -/
def pipedChild {α : Type} (l : Locals) (cmd : Command) (queue : Queue) : Job α := do
  connectFirst l
  connectRest l cmd
  closepipes l.pipes (2 * (l.nCommands - 1))
  .call (.execute l.i cmd) fun status => do
    free cmd
    queueFree queue
    .exit status

/-- The child of a command on its own. -/
def singleChild {α : Type} (l : Locals) (cmd : Command) : Job α :=
  .call (.execute l.i cmd) fun status => .exit status

/-- A foreground builtin at the end of the queue runs in the shell; `isBuiltin` may get NULL. -/
def runsInShell (cmd : Command) (queue : Queue) : Option Bool :=
  if cmd.connectionMask ≠ .background ∧ queue.length = 0 then isBuiltin cmd.path else some false

def freeLast (l : Locals) : Job Unit :=
  match l.lastCommand with
  | none => pure ()
  | some last => free last

def Locals.next (l : Locals) (cmd : Command) : Locals :=
  { l with i := l.i + 1, lastCommand := some cmd }

def restore (l : Locals) : Job Unit :=
  .dup2 l.stdinCopy 0 (.dup2 l.stdoutCopy 1 (.ret ()))

def reapLaunched (launched : Int → Int) : Nat → Job Unit
  | 0 => pure ()
  | count + 1 => do
    reapLaunched launched count
    .call (.load .launched count) fun _ => .reap (launched count) (.ret ())

/-- What follows the loop over the commands. -/
def finishQueue (l : Locals) : Job (Int × Queue) := do
  closepipes l.pipes (2 * (l.nCommands - 1))
  restore l
  waitForLast l
  freeLast l
  reapLaunched l.launched l.nCommands
  .call (.setFgPid 0) fun _ => .ret (0, [])

/-- The wait and the redirections before a command, none for a `return -1`. -/
def prepare (l : Locals) (cmd : Command) : Job (Option Locals) := do
  waitForLast l
  closeOpened l.fdIn
  closeOpened l.fdOut
  match ← redirectInput { l with fdIn := -1, fdOut := -1 } cmd with
  | none => pure none
  | some l =>
    match ← redirectOutput l cmd with
    | none => pure none
    | some l =>
      dupOpened l.fdIn 0
      dupOpened l.fdOut 1
      pure (some l)

def startPipeline (l : Locals) : Job Locals :=
  if l.afterPipe then pure l else makePipes l (l.nCommands - 1)

/-- The loop over the commands still in the queue, as many as its bound leaves. -/
def commandLoop : Locals → Queue → Job (Int × Queue)
  | l, [] => finishQueue l
  | l, cmd :: queue => do
    match ← prepare l cmd with
    | none => pure (-1, queue)
    | some l =>
      if l.afterPipe ∨ cmd.connectionMask = .pipe then
        let l ← startPipeline l
        .fork l.i fun pid =>
          if pid = 0 then pipedChild l cmd queue
          else .call (.store .launched l.i) fun _ => .call (.setFgPid pid) fun _ => do
            freeLast l
            let launched := Function.update l.launched l.i pid
            commandLoop (Locals.next { l with pid := pid, launched := launched } cmd) queue
      else
        match runsInShell cmd queue with
        | none => .crash
        | some true => .call (.execute l.i cmd) fun _ => do
          free cmd
          pure (0, queue)
        | some false => .fork l.i fun pid =>
          -- The test before this `fork` is the one of the branch.
          if pid = 0 then singleChild l cmd
          else do
            restore l
            freeLast l
            commandLoop (Locals.next { l with pid := pid } cmd) queue

/-- The value returned and what is left of the queue. -/
def executeCommandsInQueue (stack : Stack) (queue : Queue) : Job (Int × Queue) :=
  if queue.length = 0 then pure (0, queue)
  else .dup 0 fun stdinCopy => .dup 1 fun stdoutCopy =>
    commandLoop
      { nCommands := queue.length
        i := 0
        pipes := stack.pipes
        fdIn := -1
        fdOut := -1
        stdinCopy := stdinCopy
        stdoutCopy := stdoutCopy
        launched := stack.launched
        pid := -1
        lastCommand := none }
      queue

end Redshell
