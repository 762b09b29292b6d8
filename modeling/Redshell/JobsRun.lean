import Redshell.Jobs

/-! What the parts of the executor do to the descriptors, and the commands they start. -/
namespace Redshell

abbrev JobFiles := Files Redirection
abbrev JobWorld := World Redirection Routine Memory

/-- A command that starts, in which process, and the descriptors it starts with. -/
structure Start where
  process : Option Nat
  index : Nat
  command : Command
  fds : Table (OpenFile Redirection)

def startOf (entry : Entry Redirection Routine) : Option Start :=
  match entry.event with
  | .call (.execute i cmd) => some ⟨entry.process, i, cmd, entry.fds⟩
  | _ => none

def starts (w : JobWorld) : List Start := w.trace.filterMap startOf

/-- What the shell does with processes and commands, besides executing them. -/
inductive Deed where
  | fork (child : Nat) (pid : Int)
  | waitpid (pid : Int)
  | reap (pid : Int)
  | free (cmd : Command)
  | setFgPid (pid : Int)
  deriving DecidableEq

def deedOf : Event Redirection Routine → Option Deed
  | .fork child pid => some (.fork child pid)
  | .waitpid pid => some (.waitpid pid)
  | .reap pid => some (.reap pid)
  | .call (.free cmd) => some (.free cmd)
  | .call (.setFgPid pid) => some (.setFgPid pid)
  | _ => none

/-- A deed, and the descriptors of the shell then. -/
structure Done where
  fds : Table (OpenFile Redirection)
  deed : Deed

def doneOf (entry : Entry Redirection Routine) : Option Done :=
  if entry.process.isNone then (deedOf entry.event).map (⟨entry.fds, ·⟩) else none

def deeds (w : JobWorld) : List Done := w.trace.filterMap doneOf

/-- The value of `fg_pid` after some deeds. -/
def fgPidAfter (pid : Int) (done : List Done) : Int :=
  done.foldl (fun pid d =>
    match d.deed with
    | .setFgPid pid => pid
    | _ => pid) pid

/-- The same process, with the shell's state and the commands started as before; only the shell's
own deeds count. -/
structure Quiet (w : JobWorld) (done : List Done) (w' : JobWorld) : Prop where
  process : w'.process = w.process
  shell : w'.memory.shell = w.memory.shell
  fgPid : w'.memory.fgPid = fgPidAfter w.memory.fgPid done
  starts : starts w' = starts w
  deeds : deeds w' = deeds w ++ if w.process.isNone then done else []

namespace Quiet

variable {w w' w'' : JobWorld} {done done' : List Done}

theorem refl (w : JobWorld) : Quiet w [] w := by
  refine ⟨rfl, rfl, rfl, rfl, ?_⟩
  split <;> exact (List.append_nil _).symm

theorem trans (h : Quiet w done w') (h' : Quiet w' done' w'') : Quiet w (done ++ done') w'' := by
  refine ⟨h'.process.trans h.process, h'.shell.trans h.shell, ?_, h'.starts.trans h.starts, ?_⟩
  · rw [h'.fgPid, h.fgPid, fgPidAfter, fgPidAfter, fgPidAfter, List.foldl_append]
  · rw [h'.deeds, h.deeds, h.process]
    split <;> simp

/-- An event that is no deed. -/
theorem log {event : Event Redirection Routine} {files : JobFiles} (hdeed : deedOf event = none)
    (hstart : startOf ⟨w.process, w.files.fds, event⟩ = none) :
    Quiet w [] { w.log event with files := files } := by
  have hdone : doneOf ⟨w.process, w.files.fds, event⟩ = none := by simp [doneOf, hdeed]
  refine ⟨rfl, rfl, rfl, ?_, ?_⟩
  · simp [Redshell.starts, World.log, hstart]
  · simp [Redshell.deeds, World.log, hdone]

theorem logDeed {event : Event Redirection Routine} {memory : Memory} {deed : Deed}
    (hdeed : deedOf event = some deed) (hshell : memory.shell = w.memory.shell)
    (hfg : memory.fgPid = fgPidAfter w.memory.fgPid [⟨w.files.fds, deed⟩]) :
    Quiet w [⟨w.files.fds, deed⟩] { w.log event with memory := memory } := by
  have hstart : startOf ⟨w.process, w.files.fds, event⟩ = none := by
    unfold deedOf at hdeed
    split at hdeed <;> first | rfl | cases hdeed
  refine ⟨rfl, hshell, hfg, ?_, ?_⟩
  · simp [Redshell.starts, World.log, hstart]
  · cases hp : w.process.isNone <;> simp [Redshell.deeds, World.log, doneOf, hdeed, hp]

end Quiet

/-- From these descriptors, a part of the executor returns a value and leaves those, with only
these deeds. -/
def Leaves {α : Type} (host : Host) (p : Job α) (f : JobFiles) (a : α) (f' : JobFiles)
    (done : List Done) : Prop :=
  ∀ w : JobWorld, w.files = f →
    ∃ w', Returns host.system p w a w' ∧ Quiet w done w' ∧ w'.files = f'

variable {α β : Type} {host : Host} {f f' f'' : JobFiles} {a : α} {b : β} {p : Job α}
  {k : α → Job β} {l : Locals} {cmd : Command} {queue : Queue} {w : JobWorld} {fd old : Int}
  {new i : Nat} {output : Bool} {path : CString}
  {done done' : List Done}

namespace Leaves

theorem ret (a : α) : Leaves host (.ret a) f a f [] := fun w hw =>
  ⟨w, .ret a w, .refl w, hw⟩

theorem bind (h : Leaves host p f a f' done) (hk : Leaves host (k a) f' b f'' done') :
    Leaves host (p >>= k) f b f'' (done ++ done') := by
  intro w hw
  obtain ⟨w₁, hreturns, hquiet, hw₁⟩ := h w hw
  obtain ⟨w₂, hreturns', hquiet', hw₂⟩ := hk w₁ hw₁
  exact ⟨w₂, hreturns.bind hreturns', hquiet.trans hquiet', hw₂⟩

/-- A part without deeds comes first. -/
theorem quiet_bind (h : Leaves host p f a f' []) (hk : Leaves host (k a) f' b f'' done) :
    Leaves host (p >>= k) f b f'' done := h.bind hk

/-- The rest has no deeds. -/
theorem bind_quiet (h : Leaves host p f a f' done) (hk : Leaves host (k a) f' b f'' []) :
    Leaves host (p >>= k) f b f'' done := by
  have hbind := h.bind hk
  rwa [List.append_nil] at hbind

theorem dup2 {next : Job α} (h : Leaves host next (f.dup2 old new) a f' done) :
    Leaves host (.dup2 old new next) f a f' done := by
  rintro w rfl
  obtain ⟨w', hreturns, hquiet, hw'⟩ := h (w.dup2 old new) rfl
  exact ⟨w', .dup2 hreturns, (Quiet.log rfl rfl).trans hquiet, hw'⟩

theorem close {next : Job α} (h : Leaves host next (f.close fd) a f' done) :
    Leaves host (.close fd next) f a f' done := by
  rintro w rfl
  obtain ⟨w', hreturns, hquiet, hw'⟩ := h (w.close fd) rfl
  exact ⟨w', .close hreturns, (Quiet.log rfl rfl).trans hquiet, hw'⟩

theorem openFile {name : Redirection} {next : Int → Job α} (hopens : host.opens name = true)
    (h : Leaves host (next (f.openNew name).1) (f.openNew name).2 a f' done) :
    Leaves host (.openFile name next) f a f' done := by
  rintro w rfl
  obtain ⟨w', hreturns, hquiet, hw'⟩ := h
    { w.log (.openFile name (w.files.openNew name).1) with files := (w.files.openNew name).2 } rfl
  have hmade : w.openFile host.system name = ((w.files.openNew name).1,
      { w.log (.openFile name (w.files.openNew name).1) with
        files := (w.files.openNew name).2 }) := if_pos hopens
  refine ⟨w', .openFile ?_, (Quiet.log rfl rfl).trans hquiet, hw'⟩
  rw [hmade]
  exact hreturns

theorem openFile_fails {name : Redirection} {next : Int → Job α} (hopens : host.opens name = false)
    (h : Leaves host (next (-1)) f a f' done) : Leaves host (.openFile name next) f a f' done := by
  rintro w rfl
  obtain ⟨w', hreturns, hquiet, hw'⟩ := h (w.log (.openFile name (-1))) rfl
  have hmade : w.openFile host.system name = (-1, w.log (.openFile name (-1))) :=
    if_neg (by simp [Host.systemIn, hopens])
  refine ⟨w', .openFile ?_, (Quiet.log rfl rfl).trans hquiet, hw'⟩
  rw [hmade]
  exact hreturns

theorem pipe {start pair : Nat} {next : Int → Int → Job α}
    (h : Leaves host (next f.pipe.1 f.pipe.2.1) f.pipe.2.2 a f' done) :
    Leaves host (.pipe start pair next) f a f' done := by
  rintro w rfl
  obtain ⟨w', hreturns, hquiet, hw'⟩ := h (w.pipe host.system start pair).2.2 rfl
  exact ⟨w', .pipe hreturns, (Quiet.log rfl rfl).trans hquiet, hw'⟩

theorem waitpid {pid : Int} {next : Job α} (h : Leaves host next f a f' done) :
    Leaves host (.waitpid pid next) f a f' (⟨f.fds, .waitpid pid⟩ :: done) := by
  rintro w rfl
  obtain ⟨w', hreturns, hquiet, hw'⟩ := h (w.log (.waitpid pid)) rfl
  exact ⟨w', .waitpid hreturns, (Quiet.logDeed rfl rfl rfl).trans hquiet, hw'⟩

theorem reap {pid : Int} {next : Job α} (h : Leaves host next f a f' done) :
    Leaves host (.reap pid next) f a f' (⟨f.fds, .reap pid⟩ :: done) := by
  rintro w rfl
  obtain ⟨w', hreturns, hquiet, hw'⟩ := h (w.log (.reap pid)) rfl
  exact ⟨w', .reap hreturns, (Quiet.logDeed rfl rfl rfl).trans hquiet, hw'⟩

theorem free {cmd : Command} {next : Int → Job α} (h : Leaves host (next 0) f a f' done) :
    Leaves host (.call (.free cmd) next) f a f' (⟨f.fds, .free cmd⟩ :: done) := by
  rintro w rfl
  obtain ⟨w', hreturns, hquiet, hw'⟩ := h (w.log (.call (.free cmd))) rfl
  have hdone : host.system.perform (.free cmd) w.memory = .returned 0 w.memory := rfl
  exact ⟨w', .call hdone hreturns, (Quiet.logDeed rfl rfl rfl).trans hquiet, hw'⟩

theorem setFgPid {pid : Int} {next : Int → Job α} (h : Leaves host (next 0) f a f' done) :
    Leaves host (.call (.setFgPid pid) next) f a f' (⟨f.fds, .setFgPid pid⟩ :: done) := by
  rintro w rfl
  have hdone : host.system.perform (.setFgPid pid) w.memory =
      .returned 0 { w.memory with fgPid := pid } := rfl
  have hlog : Quiet w [⟨w.files.fds, .setFgPid pid⟩]
      { w.log (.call (.setFgPid pid)) with memory := { w.memory with fgPid := pid } } :=
    Quiet.logDeed rfl rfl rfl
  obtain ⟨w', hreturns, hquiet, hw'⟩ := h
    { w.log (.call (.setFgPid pid)) with memory := { w.memory with fgPid := pid } } rfl
  exact ⟨w', .call hdone hreturns, hlog.trans hquiet, hw'⟩

/-- A mark in the trace. -/
theorem mark {routine : Routine} {next : Int → Job α}
    (hmark : (∃ path, routine = .report path) ∨ ∃ array j,
      routine = .store array j ∨ routine = .load array j)
    (h : Leaves host (next 0) f a f' done) : Leaves host (.call routine next) f a f' done := by
  rintro w rfl
  obtain ⟨w', hreturns, hquiet, hw'⟩ := h (w.log (.call routine)) rfl
  have hdone : host.system.perform routine w.memory = .returned 0 w.memory := by
    rcases hmark with ⟨path, rfl⟩ | ⟨array, j, rfl | rfl⟩ <;> rfl
  refine ⟨w', .call hdone hreturns, Quiet.trans (Quiet.log ?_ ?_) hquiet, hw'⟩
  · rcases hmark with ⟨path, rfl⟩ | ⟨array, j, rfl | rfl⟩ <;> rfl
  · rcases hmark with ⟨path, rfl⟩ | ⟨array, j, rfl | rfl⟩ <;> rfl

theorem store {array : Arr} {j : Int} {next : Int → Job α}
    (h : Leaves host (next 0) f a f' done) :
    Leaves host (.call (.store array j) next) f a f' done :=
  .mark (.inr ⟨array, j, .inl rfl⟩) h

theorem load {array : Arr} {j : Int} {next : Int → Job α}
    (h : Leaves host (next 0) f a f' done) :
    Leaves host (.call (.load array j) next) f a f' done :=
  .mark (.inr ⟨array, j, .inr rfl⟩) h

theorem report {path : CString} {next : Int → Job α} (h : Leaves host (next 0) f a f' done) :
    Leaves host (.call (.report path) next) f a f' done := .mark (.inl ⟨path, rfl⟩) h

end Leaves

/-! The parts of the executor. -/

theorem free_leaves (cmd : Command) : Leaves host (free cmd) f () f [⟨f.fds, .free cmd⟩] :=
  .free (.ret ())

/-- The last command is released. -/
def Locals.freed (l : Locals) (f : JobFiles) : List Done :=
  match l.lastCommand with
  | none => []
  | some last => [⟨f.fds, .free last⟩]

theorem freeLast_leaves (l : Locals) : Leaves host (freeLast l) f () f (l.freed f) := by
  unfold freeLast Locals.freed
  cases l.lastCommand with
  | none => exact .ret ()
  | some last => exact free_leaves last

theorem queueFree_leaves (queue : Queue) :
    Leaves host (queueFree queue) f () f (queue.map fun cmd => ⟨f.fds, .free cmd⟩) := by
  induction queue with
  | nil => exact .ret ()
  | cons cmd queue ih => exact .bind (free_leaves cmd) ih

/-- The wait for the last command, if it is waited for. -/
def Locals.waited (l : Locals) (f : JobFiles) : List Done :=
  match l.lastCommand with
  | none => []
  | some last =>
    if l.pid ≠ -1 ∧ last.connectionMask ≠ .pipe ∧ last.connectionMask ≠ .background then
      [⟨f.fds, .waitpid l.pid⟩]
    else []

theorem waitForLast_leaves (l : Locals) : Leaves host (waitForLast l) f () f (l.waited f) := by
  unfold waitForLast Locals.waited
  cases l.lastCommand with
  | none => exact .ret ()
  | some last =>
    dsimp only
    split
    · exact .waitpid (.ret ())
    · exact .ret ()

theorem reapLaunched_leaves (launched : Int → Int) (count : Nat) :
    Leaves host (reapLaunched launched count) f () f
      ((List.range count).map fun i : Nat => ⟨f.fds, .reap (launched i)⟩) := by
  induction count with
  | zero => exact .ret ()
  | succ count ih =>
    rw [List.range_succ, List.map_append]
    exact .bind ih (.load (.reap (.ret ())))

theorem close_minus_one (f : JobFiles) : f.close (-1) = f := by
  rw [Files.close, Table.close, Table.get_of_neg (by omega)]
  rfl

theorem dup2_minus_one (f : JobFiles) (new : Nat) : f.dup2 (-1) new = f := by
  rw [Files.dup2, Table.dup2, Table.get_of_neg (by omega)]

theorem closeOpened_leaves (fd : Int) : Leaves host (closeOpened fd) f () (f.close fd) [] := by
  unfold closeOpened
  split
  · exact .close (.ret ())
  · next h =>
    obtain rfl : fd = -1 := by simpa using h
    rw [close_minus_one]
    exact .ret ()

theorem dupOpened_leaves (fd : Int) (stream : Nat) :
    Leaves host (dupOpened fd stream) f () (f.dup2 fd stream) [] := by
  unfold dupOpened
  split
  · exact .dup2 (.ret ())
  · next h =>
    obtain rfl : fd = -1 := by simpa using h
    rw [dup2_minus_one]
    exact .ret ()

/-- The numbers below a count are closed. -/
def Files.closeAll (f : JobFiles) (pipes : Int → Int) : Nat → JobFiles
  | 0 => f
  | count + 1 => (f.closeAll pipes count).close (pipes count)

theorem closepipes_leaves (pipes : Int → Int) (count : Nat) :
    Leaves host (closepipes pipes count) f () (f.closeAll pipes count) [] := by
  induction count with
  | zero => exact .ret ()
  | succ count ih => exact .quiet_bind ih (.load (.close (.ret ())))

theorem restore_leaves (l : Locals) :
    Leaves host (restore l) f () ((f.dup2 l.stdinCopy 0).dup2 l.stdoutCopy 1) [] :=
  .dup2 (.dup2 (.ret ()))

/-- The number of a redirection and the descriptors after it, when its `open` succeeds. -/
def Files.redirect (f : JobFiles) (i : Nat) (output : Bool) : Option CString → Int × JobFiles
  | none => (-1, f)
  | some path => f.openNew ⟨i, output, path⟩

/-- The redirection's `open` fails. -/
def Host.fails (host : Host) (i : Nat) (output : Bool) (path : Option CString) : Bool :=
  path.any fun path => !host.opens ⟨i, output, path⟩

theorem pipe_ne (f : JobFiles) : f.pipe.1 ≠ -1 := by
  simp only [Files.pipe, Table.alloc]
  omega

theorem openNew_nonneg (f : JobFiles) (name : Redirection) : (f.openNew name).1 ≠ -1 := by
  simp only [Files.openNew, Table.alloc]
  omega

theorem redirectInput_leaves (hin : l.fdIn = -1)
    (hok : host.fails l.i false cmd.redirectFromPath = false) :
    Leaves host (redirectInput l cmd) f
      (some { l with fdIn := (f.redirect l.i false cmd.redirectFromPath).1 })
      (f.redirect l.i false cmd.redirectFromPath).2 [] := by
  unfold redirectInput
  cases hpath : cmd.redirectFromPath with
  | none =>
    simp only [Files.redirect, ← hin]
    exact .ret (some l)
  | some path =>
    refine .openFile (by simpa [Host.fails, hpath] using hok) ?_
    rw [if_neg (openNew_nonneg f _)]
    exact .ret _

theorem redirectOutput_leaves (hout : l.fdOut = -1)
    (hok : host.fails l.i true cmd.redirectToPath = false) :
    Leaves host (redirectOutput l cmd) f
      (some { l with fdOut := (f.redirect l.i true cmd.redirectToPath).1 })
      (f.redirect l.i true cmd.redirectToPath).2 [] := by
  unfold redirectOutput
  cases hpath : cmd.redirectToPath with
  | none =>
    simp only [Files.redirect, ← hout]
    exact .ret (some l)
  | some path =>
    refine .openFile (by simpa [Host.fails, hpath] using hok) ?_
    rw [if_neg (openNew_nonneg f _)]
    exact .ret _

theorem redirectInput_fails (hfail : host.fails l.i false cmd.redirectFromPath = true) :
    Leaves host (redirectInput l cmd) f none f [] := by
  unfold redirectInput
  cases hpath : cmd.redirectFromPath with
  | none => simp [Host.fails, hpath] at hfail
  | some path =>
    refine .openFile_fails (by simpa [Host.fails, hpath] using hfail) ?_
    exact .report (.ret none)

theorem redirectOutput_fails (hfail : host.fails l.i true cmd.redirectToPath = true) :
    Leaves host (redirectOutput l cmd) f none f [] := by
  unfold redirectOutput
  cases hpath : cmd.redirectToPath with
  | none => simp [Host.fails, hpath] at hfail
  | some path =>
    refine .openFile_fails (by simpa [Host.fails, hpath] using hfail) ?_
    refine .report ?_
    split
    · next hin =>
      refine .close ?_
      rw [hin, close_minus_one]
      exact .ret none
    · exact .ret none

/-- The variables and the descriptors when a command is about to be executed. -/
def Locals.prepared (l : Locals) (f : JobFiles) (cmd : Command) : Locals × JobFiles :=
  let input := ((f.close l.fdIn).close l.fdOut).redirect l.i false cmd.redirectFromPath
  let output := input.2.redirect l.i true cmd.redirectToPath
  ({ l with fdIn := input.1, fdOut := output.1 }, (output.2.dup2 input.1 0).dup2 output.1 1)

/-- One of the command's redirections fails. -/
def Host.failsAt (host : Host) (i : Nat) (cmd : Command) : Bool :=
  host.fails i false cmd.redirectFromPath || host.fails i true cmd.redirectToPath

theorem prepare_leaves (hok : host.failsAt l.i cmd = false) :
    Leaves host (prepare l cmd) f (some (l.prepared f cmd).1) (l.prepared f cmd).2
      (l.waited f) := by
  obtain ⟨hin, hout⟩ := Bool.or_eq_false_iff.mp hok
  unfold prepare
  refine .bind_quiet (waitForLast_leaves l) ?_
  refine .quiet_bind (closeOpened_leaves l.fdIn) ?_
  refine .quiet_bind (closeOpened_leaves l.fdOut) ?_
  refine .quiet_bind (redirectInput_leaves rfl hin) ?_
  refine .quiet_bind (redirectOutput_leaves rfl hout) ?_
  refine .quiet_bind (dupOpened_leaves _ 0) ?_
  exact .quiet_bind (dupOpened_leaves _ 1) (.ret _)

/-- On a failed `open`, no stream has been redirected. -/
theorem prepare_fails (hfail : host.failsAt l.i cmd = true) :
    ∃ path, Leaves host (prepare l cmd) f none
      (((f.close l.fdIn).close l.fdOut).redirect l.i false path).2 (l.waited f) := by
  unfold prepare
  by_cases hin : host.fails l.i false cmd.redirectFromPath = true
  · refine ⟨none, .bind_quiet (waitForLast_leaves l) ?_⟩
    refine .quiet_bind (closeOpened_leaves l.fdIn) ?_
    refine .quiet_bind (closeOpened_leaves l.fdOut) ?_
    exact .quiet_bind (redirectInput_fails hin) (.ret none)
  · rw [Bool.not_eq_true] at hin
    have hout : host.fails l.i true cmd.redirectToPath = true := by
      simpa [Host.failsAt, hin] using hfail
    refine ⟨cmd.redirectFromPath, .bind_quiet (waitForLast_leaves l) ?_⟩
    refine .quiet_bind (closeOpened_leaves l.fdIn) ?_
    refine .quiet_bind (closeOpened_leaves l.fdOut) ?_
    refine .quiet_bind (redirectInput_leaves rfl hin) ?_
    exact .quiet_bind (redirectOutput_fails hout) (.ret none)

/-! The pipes of a pipeline and the children. -/

/-- The variables and the descriptors after a number of pipes is made. -/
def Locals.withPipes (l : Locals) (f : JobFiles) : Nat → Locals × JobFiles
  | 0 => (l, f)
  | count + 1 =>
    let before := l.withPipes f count
    ({ before.1 with
        pipes := Function.update (Function.update before.1.pipes (2 * count) before.2.pipe.1)
          (2 * count + 1) before.2.pipe.2.1 },
      before.2.pipe.2.2)

def Locals.started (l : Locals) (f : JobFiles) : Locals × JobFiles :=
  if l.afterPipe then (l, f) else l.withPipes f (l.nCommands - 1)

theorem makePipes_leaves (l : Locals) (count : Nat) :
    Leaves host (makePipes l count) f (l.withPipes f count).1 (l.withPipes f count).2 [] := by
  induction count with
  | zero => exact .ret l
  | succ count ih =>
    refine .quiet_bind ih (.pipe ?_)
    rw [if_neg (pipe_ne _)]
    exact .store (.store (.ret _))

theorem startPipeline_leaves (l : Locals) :
    Leaves host (startPipeline l) f (l.started f).1 (l.started f).2 [] := by
  unfold startPipeline Locals.started
  split
  · exact .ret l
  · exact makePipes_leaves l _

/-- The pipe operations of a child that `connectFirst` makes. -/
def Locals.connectedFirst (l : Locals) (f : JobFiles) : JobFiles :=
  if ¬ l.afterPipe ∧ 1 < l.nCommands then f.dup2 (l.pipes 1) 1 else f

/-- The pipe operations of a child that `connectRest` makes. -/
def Locals.connectedRest (l : Locals) (cmd : Command) (f : JobFiles) : JobFiles :=
  if cmd.connectionMask ≠ .pipe then
    if 1 < l.nCommands then f.dup2 (l.pipes (2 * ((l.i : Int) - 1))) 0 else f
  else (f.dup2 (l.pipes (2 * ((l.i : Int) - 1))) 0).dup2 (l.pipes (2 * (l.i : Int) + 1)) 1

/-- The descriptors that a piped command starts with. -/
def Locals.connected (l : Locals) (cmd : Command) (f : JobFiles) : JobFiles :=
  (l.connectedRest cmd (l.connectedFirst f)).closeAll l.pipes (2 * (l.nCommands - 1))

theorem connectFirst_leaves (l : Locals) :
    Leaves host (connectFirst l) f () (l.connectedFirst f) [] := by
  unfold connectFirst Locals.connectedFirst
  split
  · exact .load (.dup2 (.ret ()))
  · exact .ret ()

theorem connectRest_leaves (l : Locals) (cmd : Command) :
    Leaves host (connectRest l cmd) f () (l.connectedRest cmd f) [] := by
  unfold connectRest Locals.connectedRest
  split
  · split
    · exact .load (.dup2 (.ret ()))
    · exact .ret ()
  · exact .quiet_bind (.load (.dup2 (.ret ()))) (.load (.dup2 (.ret ())))

theorem closeAll_nextFile (f : JobFiles) (pipes : Int → Int) (count : Nat) :
    (f.closeAll pipes count).nextFile = f.nextFile := by
  induction count with
  | zero => rfl
  | succ count ih => exact ih

theorem connected_nextFile (l : Locals) (cmd : Command) (f : JobFiles) :
    (l.connected cmd f).nextFile = f.nextFile := by
  rw [Locals.connected, closeAll_nextFile, Locals.connectedRest, Locals.connectedFirst]
  split_ifs <;> rfl

/-- A part of a child's run: it shows in what it starts, and makes no file. -/
structure ChildRan (w : JobWorld) (started : List Start) (w' : JobWorld) : Prop where
  starts : starts w' = starts w ++ started
  deeds : deeds w' = deeds w
  nextFile : w'.files.nextFile = w.files.nextFile

theorem Quiet.childRan {w w' : JobWorld} {i : Nat} (h : Quiet w done w')
    (hw : w.process = some i) (hfiles : w'.files.nextFile = w.files.nextFile) :
    ChildRan w [] w' := by
  refine ⟨?_, ?_, hfiles⟩
  · rw [h.starts, List.append_nil]
  · rw [h.deeds, hw]
    exact List.append_nil _

theorem ChildRan.trans {w w' w'' : JobWorld} {ss ss' : List Start} (h : ChildRan w ss w')
    (h' : ChildRan w' ss' w'') : ChildRan w (ss ++ ss') w'' :=
  ⟨by rw [h'.starts, h.starts, List.append_assoc], h'.deeds.trans h.deeds,
    h'.nextFile.trans h.nextFile⟩

/-- A command starts, whatever becomes of the process. -/
theorem execute_childRan {next : Int → Job α} (i : Nat) (cmd : Command) (w : JobWorld)
    (hnext : ∀ status w', w'.process = w.process →
      ChildRan w' [] (run host.system (next status) w').1) :
    ChildRan w [⟨w.process, i, cmd, w.files.fds⟩]
      (run host.system (.call (.execute i cmd) next) w).1 := by
  have hlog : ∀ memory, ChildRan w [⟨w.process, i, cmd, w.files.fds⟩]
      { w.log (.call (.execute i cmd)) with memory := memory } := by
    intro memory
    refine ⟨?_, ?_, rfl⟩
    · simp [starts, World.log, startOf]
    · simp [deeds, World.log, doneOf, deedOf]
  rw [run]
  cases host.system.perform (.execute i cmd) w.memory with
  | returned status memory => exact (hlog memory).trans (hnext status _ rfl)
  | exited => exact hlog w.memory
  | replaced => exact hlog w.memory
  | crashed => exact hlog w.memory

theorem exit_childRan (host : Host) (status : Int) (w : JobWorld) :
    ChildRan w [] (run host.system (.exit status : Job α) w).1 := by
  refine ⟨?_, ?_, rfl⟩
  · simp [run, starts, World.log, startOf]
  · simp [run, deeds, World.log, doneOf, deedOf]

theorem pipedChild_childRan {i : Nat} (host : Host) (l : Locals) (cmd : Command) (queue : Queue)
    {w : JobWorld} (hw : w.process = some i) :
    ChildRan w [⟨some i, l.i, cmd, (l.connected cmd w.files).fds⟩]
      (run host.system (pipedChild l cmd queue : Job α) w).1 := by
  obtain ⟨w₁, hrun₁, hquiet₁, hw₁⟩ := connectFirst_leaves l w rfl
  obtain ⟨w₂, hrun₂, hquiet₂, hw₂⟩ := connectRest_leaves l cmd w₁ hw₁
  obtain ⟨w₃, hrun₃, hquiet₃, hw₃⟩ := closepipes_leaves l.pipes (2 * (l.nCommands - 1)) w₂ hw₂
  have hquiet := hquiet₁.trans (hquiet₂.trans hquiet₃)
  change w₃.files = l.connected cmd w.files at hw₃
  unfold pipedChild
  rw [hrun₁.run_bind, hrun₂.run_bind, hrun₃.run_bind]
  have hconnected : ChildRan w [] w₃ :=
    hquiet.childRan hw (by rw [hw₃, connected_nextFile])
  have hprocess : w₃.process = some i := hquiet.process.trans hw
  have hnext : ∀ status w', w'.process = w₃.process → ChildRan w' [] (run host.system
      (free cmd >>= fun _ => queueFree queue >>= fun _ => (.exit status : Job α)) w').1 := by
    intro status w' hw'
    obtain ⟨w₄, hrun₄, hquiet₄, hw₄⟩ := free_leaves cmd w' rfl
    obtain ⟨w₅, hrun₅, hquiet₅, hw₅⟩ := queueFree_leaves queue w₄ hw₄
    rw [hrun₄.run_bind, hrun₅.run_bind]
    have hfreed := (hquiet₄.trans hquiet₅).childRan (hw'.trans hprocess) (by rw [hw₅])
    exact hfreed.trans (exit_childRan host status w₅)
  have hexecuted := execute_childRan l.i cmd w₃ hnext
  rw [hprocess, hw₃] at hexecuted
  exact hconnected.trans hexecuted

theorem singleChild_childRan (host : Host) (l : Locals) (cmd : Command) (w : JobWorld) :
    ChildRan w [⟨w.process, l.i, cmd, w.files.fds⟩]
      (run host.system (singleChild l cmd : Job α) w).1 :=
  execute_childRan l.i cmd w fun status w' _ => exit_childRan host status w'

end Redshell
