import Redshell.Descriptors

/-! Programs that make system calls, and the processes that run them. -/
namespace Redshell

/-- A program over file names `ν` and calls `κ` of its own routines; it names the child that it
makes, and each `pipe` by two numbers. -/
inductive Prog (ν κ α : Type) where
  | ret (value : α)
  | crash
  | exit (status : Int)
  | dup (fd : Int) (next : Int → Prog ν κ α)
  | dup2 (old : Int) (new : Nat) (next : Prog ν κ α)
  | close (fd : Int) (next : Prog ν κ α)
  | openFile (name : ν) (next : Int → Prog ν κ α)
  | pipe (start pair : Nat) (next : Int → Int → Prog ν κ α)
  | fork (child : Nat) (next : Int → Prog ν κ α)
  | waitpid (pid : Int) (next : Prog ν κ α)
  | reap (pid : Int) (next : Prog ν κ α)
  | call (routine : κ) (next : Int → Prog ν κ α)

namespace Prog

variable {ν κ α β : Type}

def bind : Prog ν κ α → (α → Prog ν κ β) → Prog ν κ β
  | ret value, k => k value
  | crash, _ => crash
  | exit status, _ => exit status
  | dup fd next, k => dup fd fun r => (next r).bind k
  | dup2 old new next, k => dup2 old new (next.bind k)
  | close fd next, k => close fd (next.bind k)
  | openFile name next, k => openFile name fun r => (next r).bind k
  | pipe start pair next, k => pipe start pair fun r w => (next r w).bind k
  | fork child next, k => fork child fun pid => (next pid).bind k
  | waitpid pid next, k => waitpid pid (next.bind k)
  | reap pid next, k => reap pid (next.bind k)
  | call routine next, k => call routine fun status => (next status).bind k

instance : Monad (Prog ν κ) where
  pure := ret
  bind := bind

end Prog

/-- Where an open file comes from: not from this run, from `open`, or an end of a `pipe`. -/
inductive Origin (ν : Type) where
  | inherited
  | named (name : ν)
  | pipeEnd (write : Bool)
  deriving DecidableEq

/-- An open file; only the two ends of a pipe share their number. -/
structure OpenFile (ν : Type) where
  id : Nat
  origin : Origin ν
  deriving DecidableEq

/-- A step of a program; `reap` is `waitpid` repeated while it is interrupted. -/
inductive Event (ν κ : Type) where
  | dup (fd result : Int)
  | dup2 (old : Int) (new : Nat)
  | close (fd : Int)
  | openFile (name : ν) (result : Int)
  | pipe (read write : Int)
  | fork (child : Nat) (pid : Int)
  | waitpid (pid : Int)
  | reap (pid : Int)
  | call (routine : κ)
  | exit (status : Int)

/-- The process that took a step, none for the one at the start, and its descriptors then. -/
structure Entry (ν κ : Type) where
  process : Option Nat
  fds : Table (OpenFile ν)
  event : Event ν κ

/-- The descriptors of a process and the number that the next open file gets. -/
structure Files (ν : Type) where
  fds : Table (OpenFile ν)
  nextFile : Nat

namespace Files

variable {ν : Type}

def dup (f : Files ν) (fd : Int) : Int × Files ν :=
  ((f.fds.dup fd).1, { f with fds := (f.fds.dup fd).2 })

def dup2 (f : Files ν) (old : Int) (new : Nat) : Files ν := { f with fds := f.fds.dup2 old new }

def close (f : Files ν) (fd : Int) : Files ν := { f with fds := f.fds.close fd }

/-- The number and the descriptors after an `open` that succeeds. -/
def openNew (f : Files ν) (name : ν) : Int × Files ν :=
  let made := f.fds.alloc ⟨f.nextFile, .named name⟩
  (made.1, ⟨made.2, f.nextFile + 1⟩)

/-- The numbers of the read end and the write end, and the descriptors. -/
def pipe (f : Files ν) : Int × Int × Files ν :=
  let read := f.fds.alloc ⟨f.nextFile, .pipeEnd false⟩
  let write := read.2.alloc ⟨f.nextFile, .pipeEnd true⟩
  (read.1, write.1, ⟨write.2, f.nextFile + 1⟩)

end Files

structure World (ν κ σ : Type) where
  files : Files ν
  memory : σ
  process : Option Nat
  trace : List (Entry ν κ)

/-- How a routine ends; `replaced` is a successful `execvp`. -/
inductive Performed (σ : Type) where
  | returned (status : Int) (memory : σ)
  | exited
  | replaced
  | crashed

inductive Ending (α : Type) where
  | returned (value : α)
  | exited
  | replaced
  | crashed
  deriving DecidableEq

/-- What the system decides: the calls for descriptors that succeed, the children, and how the
routines end. -/
structure System (ν κ σ : Type) where
  dups : Int → Bool
  opens : ν → Bool
  pipes : Nat → Nat → Bool
  forks : Nat → Option ℕ+
  perform : κ → σ → Performed σ

variable {ν κ σ α β : Type} {sys : System ν κ σ} {w w' w'' : World ν κ σ} {p : Prog ν κ α}
  {k : α → Prog ν κ β} {a : α} {b : β}

namespace World

def log (w : World ν κ σ) (event : Event ν κ) : World ν κ σ :=
  { w with trace := w.trace ++ [⟨w.process, w.files.fds, event⟩] }

def dup (sys : System ν κ σ) (w : World ν κ σ) (fd : Int) : Int × World ν κ σ :=
  if sys.dups fd then
    let made := w.files.dup fd
    (made.1, { w.log (.dup fd made.1) with files := made.2 })
  else (-1, w.log (.dup fd (-1)))

def dup2 (w : World ν κ σ) (old : Int) (new : Nat) : World ν κ σ :=
  { w.log (.dup2 old new) with files := w.files.dup2 old new }

def close (w : World ν κ σ) (fd : Int) : World ν κ σ :=
  { w.log (.close fd) with files := w.files.close fd }

def openFile (sys : System ν κ σ) (w : World ν κ σ) (name : ν) : Int × World ν κ σ :=
  if sys.opens name then
    let made := w.files.openNew name
    (made.1, { w.log (.openFile name made.1) with files := made.2 })
  else (-1, w.log (.openFile name (-1)))

def pipe (sys : System ν κ σ) (w : World ν κ σ) (start pair : Nat) : Int × Int × World ν κ σ :=
  if sys.pipes start pair then
    let made := w.files.pipe
    (made.1, made.2.1, { w.log (.pipe made.1 made.2.1) with files := made.2.2 })
  else (-1, -1, w.log (.pipe (-1) (-1)))

theorem openFile_fails_iff (sys : System ν κ σ) (w : World ν κ σ) (name : ν) :
    (w.openFile sys name).1 = -1 ↔ sys.opens name = false := by
  rw [openFile]
  cases hopens : sys.opens name with
  | false => simp
  | true =>
    simp only [if_true, Files.openNew, Table.alloc]
    refine iff_of_false ?_ Bool.noConfusion
    omega

theorem pipe_fails_iff (sys : System ν κ σ) (w : World ν κ σ) (start pair : Nat) :
    (w.pipe sys start pair).1 = -1 ↔ sys.pipes start pair = false := by
  rw [pipe]
  cases hpipes : sys.pipes start pair with
  | false => simp
  | true =>
    simp only [if_true, Files.pipe, Table.alloc]
    refine iff_of_false ?_ Bool.noConfusion
    omega

/-- The child starts with a copy of everything. -/
def child (w : World ν κ σ) (name : Nat) : World ν κ σ :=
  { w with process := some name, trace := [] }

/-- What the parent sees of its child: the trace, and that its files are new. -/
def join (w w' : World ν κ σ) : World ν κ σ :=
  { w with
    trace := w.trace ++ w'.trace
    files := { w.files with nextFile := w'.files.nextFile } }

end World

/-- A run in which every wait returns; a child takes all its steps at its `fork`, since nothing it
does reaches its parent. -/
def run (sys : System ν κ σ) : Prog ν κ α → World ν κ σ → World ν κ σ × Ending α
  | .ret value, w => (w, .returned value)
  | .crash, w => (w, .crashed)
  | .exit status, w => (w.log (.exit status), .exited)
  | .dup fd next, w => run sys (next (w.dup sys fd).1) (w.dup sys fd).2
  | .dup2 old new next, w => run sys next (w.dup2 old new)
  | .close fd next, w => run sys next (w.close fd)
  | .openFile name next, w => run sys (next (w.openFile sys name).1) (w.openFile sys name).2
  | .pipe start pair next, w =>
    run sys (next (w.pipe sys start pair).1 (w.pipe sys start pair).2.1)
      (w.pipe sys start pair).2.2
  | .fork child next, w =>
    match sys.forks child with
    | none => run sys (next (-1)) (w.log (.fork child (-1)))
    | some pid =>
      let parent := w.log (.fork child pid)
      run sys (next pid) (parent.join (run sys (next 0) (parent.child child)).1)
  | .waitpid pid next, w => run sys next (w.log (.waitpid pid))
  | .reap pid next, w => run sys next (w.log (.reap pid))
  | .call routine next, w =>
    match sys.perform routine w.memory with
    | .returned status memory =>
      run sys (next status) { w.log (.call routine) with memory := memory }
    | .exited => (w.log (.call routine), .exited)
    | .replaced => (w.log (.call routine), .replaced)
    | .crashed => (w.log (.call routine), .crashed)

/-- A run without `fork` that returns a value, one rule for each system call. -/
inductive Returns (sys : System ν κ σ) :
    Prog ν κ α → World ν κ σ → α → World ν κ σ → Prop where
  | ret (a : α) (w : World ν κ σ) : Returns sys (.ret a) w a w
  | dup {fd : Int} {next : Int → Prog ν κ α} {w w' : World ν κ σ} {a : α}
      (h : Returns sys (next (w.dup sys fd).1) (w.dup sys fd).2 a w') :
      Returns sys (.dup fd next) w a w'
  | dup2 {old : Int} {new : Nat} {next : Prog ν κ α} {w w' : World ν κ σ} {a : α}
      (h : Returns sys next (w.dup2 old new) a w') : Returns sys (.dup2 old new next) w a w'
  | close {fd : Int} {next : Prog ν κ α} {w w' : World ν κ σ} {a : α}
      (h : Returns sys next (w.close fd) a w') : Returns sys (.close fd next) w a w'
  | openFile {name : ν} {next : Int → Prog ν κ α} {w w' : World ν κ σ} {a : α}
      (h : Returns sys (next (w.openFile sys name).1) (w.openFile sys name).2 a w') :
      Returns sys (.openFile name next) w a w'
  | pipe {start pair : Nat} {next : Int → Int → Prog ν κ α} {w w' : World ν κ σ} {a : α}
      (h : Returns sys (next (w.pipe sys start pair).1 (w.pipe sys start pair).2.1)
        (w.pipe sys start pair).2.2 a w') :
      Returns sys (.pipe start pair next) w a w'
  | waitpid {pid : Int} {next : Prog ν κ α} {w w' : World ν κ σ} {a : α}
      (h : Returns sys next (w.log (.waitpid pid)) a w') : Returns sys (.waitpid pid next) w a w'
  | reap {pid : Int} {next : Prog ν κ α} {w w' : World ν κ σ} {a : α}
      (h : Returns sys next (w.log (.reap pid)) a w') : Returns sys (.reap pid next) w a w'
  | call {routine : κ} {next : Int → Prog ν κ α} {w w' : World ν κ σ} {a : α} {status : Int}
      {memory : σ} (hdone : sys.perform routine w.memory = .returned status memory)
      (h : Returns sys (next status) { w.log (.call routine) with memory := memory } a w') :
      Returns sys (.call routine next) w a w'

namespace Returns

/-- What a returning part of a program leaves to the rest of it. -/
theorem run_bind (h : Returns sys p w a w') : run sys (p >>= k) w = run sys (k a) w' := by
  induction h with
  | ret a w => rfl
  | dup _ ih => exact ih
  | dup2 _ ih => exact ih
  | close _ ih => exact ih
  | openFile _ ih => exact ih
  | pipe _ ih => exact ih
  | waitpid _ ih => exact ih
  | reap _ ih => exact ih
  | call hdone _ ih =>
    refine Eq.trans ?_ ih
    change run sys (.call _ _) _ = _
    rw [run, hdone]
    rfl

theorem bind (h : Returns sys p w a w') (hk : Returns sys (k a) w' b w'') :
    Returns sys (p >>= k) w b w'' := by
  induction h with
  | ret a w => exact hk
  | dup _ ih => exact .dup (ih hk)
  | dup2 _ ih => exact .dup2 (ih hk)
  | close _ ih => exact .close (ih hk)
  | openFile _ ih => exact .openFile (ih hk)
  | pipe _ ih => exact .pipe (ih hk)
  | waitpid _ ih => exact .waitpid (ih hk)
  | reap _ ih => exact .reap (ih hk)
  | call hdone _ ih => exact .call hdone (ih hk)

theorem run_eq (h : Returns sys p w a w') : run sys p w = (w', .returned a) := by
  induction h with
  | ret a w => rfl
  | dup _ ih => exact ih
  | dup2 _ ih => exact ih
  | close _ ih => exact ih
  | openFile _ ih => exact ih
  | pipe _ ih => exact ih
  | waitpid _ ih => exact ih
  | reap _ ih => exact ih
  | call hdone _ ih =>
    rw [run, hdone]
    exact ih

end Returns

end Redshell
