import Redshell.JobsStep

/-! What the shell's streams refer to while it executes a queue. -/
namespace Redshell

abbrev File := OpenFile Redirection

/-- The streams at a call of the executor, and the number of the first file made after it. -/
structure Before where
  input : File
  output : File
  first : Nat
  input_old : input.id < first
  output_old : output.id < first

/-- The streams at some moment, the number of the next file, and the one of the first pipe of the
last pipeline. -/
structure Wiring where
  input : File
  output : File
  nextFile : Nat
  pipes : Option Nat

def readEnd (id : Nat) : File := ⟨id, .pipeEnd false⟩

def writeEnd (id : Nat) : File := ⟨id, .pipeEnd true⟩

namespace Wiring

def redirectInput (s : Wiring) (i : Nat) : Option CString → Wiring
  | none => s
  | some path => { s with
      input := ⟨s.nextFile, .named ⟨i, false, path⟩⟩, nextFile := s.nextFile + 1 }

def redirectOutput (s : Wiring) (i : Nat) : Option CString → Wiring
  | none => s
  | some path => { s with
      output := ⟨s.nextFile, .named ⟨i, true, path⟩⟩, nextFile := s.nextFile + 1 }

/-- The redirections of the command at an index. -/
def redirect (s : Wiring) (i : Nat) (cmd : Command) : Wiring :=
  (s.redirectInput i cmd.redirectFromPath).redirectOutput i cmd.redirectToPath

/-- New pipes, between each two of a number of commands. -/
def start (s : Wiring) (n : Nat) : Wiring :=
  { s with pipes := some s.nextFile, nextFile := s.nextFile + (n - 1) }

/-- When a command starts. -/
def ready (s : Wiring) (n i : Nat) (afterPipe : Bool) (cmd : Command) : Wiring :=
  if cmd.connectionMask = .pipe ∧ afterPipe = false then (s.redirect i cmd).start n
  else s.redirect i cmd

def restore (s : Wiring) (b : Before) : Wiring := { s with input := b.input, output := b.output }

/-- When the turn of the next command comes: only a command on its own has its streams undone. -/
def step (s : Wiring) (b : Before) (n i : Nat) (afterPipe : Bool) (cmd : Command) : Wiring :=
  if cmd.connectionMask = .pipe ∨ afterPipe then s.ready n i afterPipe cmd
  else (s.ready n i afterPipe cmd).restore b

end Wiring

/-- The number of a redirection, if there was one: it refers to a file made after the call. -/
def Opened (first : Nat) (output : Bool) (t : Table File) (fd : Int) : Prop :=
  fd = -1 ∨ ∃ id i path, first ≤ id ∧ t.Away fd ⟨id, .named ⟨i, output, path⟩⟩

/-- The descriptors agree with the wiring. -/
structure Wired (b : Before) (l : Locals) (f : JobFiles) (s : Wiring) : Prop where
  input : f.fds.get 0 = some s.input
  output : f.fds.get 1 = some s.output
  stdinCopy : f.fds.Away l.stdinCopy b.input
  stdoutCopy : f.fds.Away l.stdoutCopy b.output
  nextFile : f.nextFile = s.nextFile
  first_le : b.first ≤ s.nextFile
  pipes : ∀ base, s.pipes = some base → b.first ≤ base ∧ ∀ j < l.nCommands - 1,
    f.fds.Away (l.pipes (2 * j)) (readEnd (base + j)) ∧
      f.fds.Away (l.pipes (2 * j + 1)) (writeEnd (base + j))

variable {b : Before} {l l' : Locals} {f : JobFiles} {s : Wiring} {fd : Int} {i n : Nat}
  {output : Bool} {g : File} {cmd : Command} {path : Option CString} {t : Table File}

namespace Wired

theorem congr (h : Wired b l f s) (hin : l'.stdinCopy = l.stdinCopy)
    (hout : l'.stdoutCopy = l.stdoutCopy) (hpipes : l'.pipes = l.pipes)
    (hcount : l'.nCommands = l.nCommands) : Wired b l' f s := by
  refine ⟨h.input, h.output, ?_, ?_, h.nextFile, h.first_le, ?_⟩
  · rw [hin]
    exact h.stdinCopy
  · rw [hout]
    exact h.stdoutCopy
  · rw [hpipes, hcount]
    exact h.pipes

/-- The number of a redirection is closed. -/
theorem close (h : Wired b l f s) (ho : Opened b.first output f.fds fd) :
    Wired b l (f.close fd) s := by
  rcases ho with rfl | ⟨id, i, path, hid, haway⟩
  · rwa [close_minus_one]
  · have hne : ∀ g : File, g.id < b.first ∨ (∃ e, g.origin = .pipeEnd e) →
        f.fds.get fd ≠ some g := by
      intro g hg he
      rw [haway.refers] at he
      obtain rfl := Option.some.inj he
      rcases hg with hg | ⟨e, hg⟩
      · exact absurd hid (by simpa using hg)
      · cases hg
    refine ⟨?_, ?_, h.stdinCopy.close (hne _ (.inl b.input_old)),
      h.stdoutCopy.close (hne _ (.inl b.output_old)), h.nextFile, h.first_le, ?_⟩
    · exact (Table.get_close_of_ne haway.ne_zero.symm).trans h.input
    · exact (Table.get_close_of_ne haway.ne_one.symm).trans h.output
    · intro base hbase
      obtain ⟨hfirst, hpipes⟩ := h.pipes base hbase
      refine ⟨hfirst, fun j hj => ?_⟩
      obtain ⟨hread, hwrite⟩ := hpipes j hj
      exact ⟨hread.close (hne _ (.inr ⟨false, rfl⟩)), hwrite.close (hne _ (.inr ⟨true, rfl⟩))⟩

/-- A file is made. -/
theorem alloc (h : Wired b l f s) (g : File) :
    Wired b l ⟨(f.fds.alloc g).2, f.nextFile + 1⟩ { s with nextFile := s.nextFile + 1 } := by
  refine ⟨Table.get_alloc_of_open h.input, Table.get_alloc_of_open h.output,
    h.stdinCopy.alloc g, h.stdoutCopy.alloc g, ?_, ?_, ?_⟩
  · exact congrArg (· + 1) h.nextFile
  · exact Nat.le_succ_of_le h.first_le
  · intro base hbase
    obtain ⟨hfirst, hpipes⟩ := h.pipes base hbase
    exact ⟨hfirst, fun j hj => ⟨(hpipes j hj).1.alloc g, (hpipes j hj).2.alloc g⟩⟩

theorem dup2_input (h : Wired b l f s) (hfd : f.fds.get fd = some g) :
    Wired b l (f.dup2 fd 0) { s with input := g } := by
  refine ⟨(Table.get_dup2 hfd 0 0).trans (if_pos rfl), ?_, h.stdinCopy.dup2 fd (.inl rfl),
    h.stdoutCopy.dup2 fd (.inl rfl), h.nextFile, h.first_le, ?_⟩
  · exact (Table.get_dup2_of_ne (by omega) fd).trans h.output
  · intro base hbase
    obtain ⟨hfirst, hpipes⟩ := h.pipes base hbase
    exact ⟨hfirst, fun j hj =>
      ⟨(hpipes j hj).1.dup2 fd (.inl rfl), (hpipes j hj).2.dup2 fd (.inl rfl)⟩⟩

theorem dup2_output (h : Wired b l f s) (hfd : f.fds.get fd = some g) :
    Wired b l (f.dup2 fd 1) { s with output := g } := by
  refine ⟨?_, (Table.get_dup2 hfd 1 1).trans (if_pos rfl), h.stdinCopy.dup2 fd (.inr rfl),
    h.stdoutCopy.dup2 fd (.inr rfl), h.nextFile, h.first_le, ?_⟩
  · exact (Table.get_dup2_of_ne (by omega) fd).trans h.input
  · intro base hbase
    obtain ⟨hfirst, hpipes⟩ := h.pipes base hbase
    exact ⟨hfirst, fun j hj =>
      ⟨(hpipes j hj).1.dup2 fd (.inr rfl), (hpipes j hj).2.dup2 fd (.inr rfl)⟩⟩

theorem restored (h : Wired b l f s) : Wired b l (l.restored f) (s.restore b) :=
  (h.dup2_input h.stdinCopy.refers).dup2_output
    (h.stdoutCopy.dup2 l.stdinCopy (.inl rfl)).refers

end Wired

/-! The redirections of a command. -/

/-- The number of a redirection of a command, -1 for none. -/
def Made (t : Table File) (fd : Int) (id i : Nat) (output : Bool) : Option CString → Prop
  | none => fd = -1
  | some path => t.Away fd ⟨id, .named ⟨i, output, path⟩⟩

namespace Made

theorem alloc {id : Nat} (h : Made t fd id i output path) (g : File) :
    Made (t.alloc g).2 fd id i output path := by
  cases path with
  | none => exact h
  | some path => exact Table.Away.alloc h g

theorem dup2 {id : Nat} (h : Made t fd id i output path) (old : Int) (hn : n = 0 ∨ n = 1) :
    Made (t.dup2 old n) fd id i output path := by
  cases path with
  | none => exact h
  | some path => exact Table.Away.dup2 h old hn

theorem opened {id : Nat} (h : Made t fd id i output path) (hid : b.first ≤ id) :
    Opened b.first output t fd := by
  cases path with
  | none => exact .inl h
  | some path => exact .inr ⟨id, i, path, hid, h⟩

end Made

theorem Opened.alloc (h : Opened b.first output t fd) (g : File) :
    Opened b.first output (t.alloc g).2 fd := by
  rcases h with rfl | ⟨id, i, path, hid, haway⟩
  · exact .inl rfl
  · exact .inr ⟨id, i, path, hid, haway.alloc g⟩

theorem Opened.dup2 (h : Opened b.first output t fd) (old : Int) (hn : n = 0 ∨ n = 1) :
    Opened b.first output (t.dup2 old n) fd := by
  rcases h with rfl | ⟨id, i, path, hid, haway⟩
  · exact .inl rfl
  · exact .inr ⟨id, i, path, hid, haway.dup2 old hn⟩

theorem Opened.withPipes (h : Opened b.first output f.fds fd) (l : Locals) (count : Nat) :
    Opened b.first output (l.withPipes f count).2.fds fd := by
  induction count with
  | zero => exact h
  | succ count ih => exact (ih.alloc _).alloc _

/-- How many files a redirection makes. -/
def fileCount (path : Option CString) : Nat := if path.isSome then 1 else 0

theorem Opened.close {old : Int} (h : Opened b.first output t fd)
    (hold : Opened b.first (!output) t old) : Opened b.first output (t.close old) fd := by
  rcases h with rfl | ⟨id, i, path, hid, haway⟩
  · exact .inl rfl
  · refine .inr ⟨id, i, path, hid, haway.close ?_⟩
    rcases hold with rfl | ⟨id', i', path', _, haway'⟩
    · rw [Table.get_of_neg (by omega)]
      simp
    · rw [haway'.refers]
      cases output <;> simp

namespace Wired

theorem redirect (h : Wired b l f s) (i : Nat) (output : Bool) (path : Option CString) :
    Wired b l (f.redirect i output path).2
        { s with nextFile := s.nextFile + fileCount path } ∧
      Made (f.redirect i output path).2.fds (f.redirect i output path).1 s.nextFile i output
        path := by
  cases path with
  | none => exact ⟨h, rfl⟩
  | some path =>
    rw [← h.nextFile]
    refine ⟨?_, Table.Away.of_alloc h.input h.output _⟩
    have halloc := h.alloc ⟨f.nextFile, .named ⟨i, output, path⟩⟩
    rwa [← h.nextFile] at halloc

theorem dup2_redirectInput {id : Nat} (h : Wired b l f s) (hmade : Made f.fds fd id i false path) :
    Wired b l (f.dup2 fd 0) { s with
      input := path.elim s.input fun path => ⟨id, .named ⟨i, false, path⟩⟩ } := by
  cases path with
  | none =>
    obtain rfl : fd = -1 := hmade
    rwa [dup2_minus_one]
  | some path => exact h.dup2_input (Table.Away.refers hmade)

theorem dup2_redirectOutput {id : Nat} (h : Wired b l f s) (hmade : Made f.fds fd id i true path) :
    Wired b l (f.dup2 fd 1) { s with
      output := path.elim s.output fun path => ⟨id, .named ⟨i, true, path⟩⟩ } := by
  cases path with
  | none =>
    obtain rfl : fd = -1 := hmade
    rwa [dup2_minus_one]
  | some path => exact h.dup2_output (Table.Away.refers hmade)

theorem closeBoth (h : Wired b l f s) (hin : Opened b.first false f.fds l.fdIn)
    (hout : Opened b.first true f.fds l.fdOut) :
    Wired b l ((f.close l.fdIn).close l.fdOut) s :=
  (h.close hin).close (hout.close hin)

/-- The command's redirections are made and its streams follow them. -/
theorem prepared (h : Wired b l f s) (hin : Opened b.first false f.fds l.fdIn)
    (hout : Opened b.first true f.fds l.fdOut) (cmd : Command) :
    Wired b (l.prepared f cmd).1 (l.prepared f cmd).2 (s.redirect l.i cmd) ∧
      Opened b.first false (l.prepared f cmd).2.fds (l.prepared f cmd).1.fdIn ∧
      Opened b.first true (l.prepared f cmd).2.fds (l.prepared f cmd).1.fdOut := by
  have h₀ := h.closeBoth hin hout
  rw [Locals.prepared]
  generalize (f.close l.fdIn).close l.fdOut = f₀ at h₀
  obtain ⟨h₁, hmade⟩ := h₀.redirect l.i false cmd.redirectFromPath
  have hfirst := h₀.first_le
  obtain ⟨h₂, hmade'⟩ := h₁.redirect l.i true cmd.redirectToPath
  have hmade₂ : Made ((f₀.redirect l.i false cmd.redirectFromPath).2.redirect l.i true
      cmd.redirectToPath).2.fds (f₀.redirect l.i false cmd.redirectFromPath).1 s.nextFile l.i false
      cmd.redirectFromPath := by
    cases cmd.redirectToPath with
    | none => exact hmade
    | some path => exact hmade.alloc _
  have h₃ := h₂.dup2_redirectInput hmade₂
  have h₄ := h₃.dup2_redirectOutput (hmade'.dup2 _ (.inl rfl))
  refine ⟨?_, ?_, ?_⟩
  · refine Wired.congr (l := l) ?_ rfl rfl rfl rfl
    convert h₄ using 1
    rw [Wiring.redirect]
    cases cmd.redirectFromPath <;> cases cmd.redirectToPath <;> rfl
  · exact ((hmade₂.dup2 _ (.inl rfl)).dup2 _ (.inr rfl)).opened hfirst
  · exact ((hmade'.dup2 _ (.inl rfl)).dup2 _ (.inr rfl)).opened (Nat.le_add_right_of_le hfirst)

/-! The pipes of a pipeline. -/

/-- A pipe's two numbers, while both streams are open. -/
theorem pipe (h : Wired b l f s) :
    Wired b l f.pipe.2.2 { s with nextFile := s.nextFile + 1 } ∧
      f.pipe.2.2.fds.Away f.pipe.1 (readEnd s.nextFile) ∧
      f.pipe.2.2.fds.Away f.pipe.2.1 (writeEnd s.nextFile) := by
  rw [← h.nextFile]
  have hread := Table.Away.of_alloc h.input h.output (readEnd f.nextFile)
  have h₁ := h.alloc (readEnd f.nextFile)
  have hwrite := Table.Away.of_alloc h₁.input h₁.output (writeEnd f.nextFile)
  have h₂ := h₁.alloc (writeEnd f.nextFile)
  refine ⟨?_, hread.alloc _, hwrite⟩
  exact ⟨h₂.input, h₂.output, h₂.stdinCopy, h₂.stdoutCopy, rfl,
    h.nextFile ▸ Nat.le_succ_of_le h.first_le, h.nextFile ▸ h₂.pipes⟩

/-- The pipes made so far, before they are the pipes of a pipeline. -/
theorem withPipes (h : Wired b l f { s with pipes := none }) (count : Nat) :
    Wired b (l.withPipes f count).1 (l.withPipes f count).2
        { s with pipes := none, nextFile := s.nextFile + count } ∧
      ∀ j < count,
        (l.withPipes f count).2.fds.Away ((l.withPipes f count).1.pipes (2 * j))
          (readEnd (s.nextFile + j)) ∧
        (l.withPipes f count).2.fds.Away ((l.withPipes f count).1.pipes (2 * j + 1))
          (writeEnd (s.nextFile + j)) := by
  induction count with
  | zero => exact ⟨h, fun j hj => absurd hj (Nat.not_lt_zero j)⟩
  | succ count ih =>
    obtain ⟨hw, hpipes⟩ := ih
    obtain ⟨hw', hread, hwrite⟩ := hw.pipe
    rw [Locals.withPipes]
    dsimp only
    generalize l.withPipes f count = made at hw hpipes hw' hread hwrite ⊢
    refine ⟨⟨hw'.input, hw'.output, hw'.stdinCopy, hw'.stdoutCopy, hw'.nextFile, hw'.first_le,
      fun base hbase => by cases hbase⟩, fun j hj => ?_⟩
    rcases Nat.lt_succ_iff_lt_or_eq.mp hj with hj | rfl
    · obtain ⟨hold, hold'⟩ := hpipes j hj
      rw [Function.update_of_ne (by omega), Function.update_of_ne (by omega),
        Function.update_of_ne (by omega), Function.update_of_ne (by omega)]
      exact ⟨(hold.alloc _).alloc _, (hold'.alloc _).alloc _⟩
    · rw [Function.update_of_ne (by omega), Function.update_self, Function.update_self]
      exact ⟨hread, hwrite⟩

/-- What the pipes of the last pipeline are does not matter to the rest. -/
theorem forget (h : Wired b l f s) : Wired b l f { s with pipes := none } :=
  ⟨h.input, h.output, h.stdinCopy, h.stdoutCopy, h.nextFile, h.first_le,
    fun base hbase => by cases hbase⟩

theorem start (h : Wired b l f s) :
    Wired b (l.withPipes f (l.nCommands - 1)).1 (l.withPipes f (l.nCommands - 1)).2
      (s.start l.nCommands) := by
  obtain ⟨hw, hpipes⟩ := h.forget.withPipes (l.nCommands - 1)
  refine ⟨hw.input, hw.output, hw.stdinCopy, hw.stdoutCopy, hw.nextFile, hw.first_le, ?_⟩
  rintro base ⟨⟩
  refine ⟨h.first_le, fun j hj => hpipes j ?_⟩
  rwa [withPipes_frame] at hj

/-- When a piped command's child is made. -/
theorem ready (h : Wired b l f s) (hin : Opened b.first false f.fds l.fdIn)
    (hout : Opened b.first true f.fds l.fdOut) (hpiped : l.piped cmd = true) :
    Wired b (l.ready f cmd).1 (l.ready f cmd).2 (s.ready l.nCommands l.i l.afterPipe cmd) := by
  obtain ⟨hp, _, _⟩ := h.prepared hin hout cmd
  rw [Locals.ready, Locals.started, Wiring.ready]
  rw [show (l.prepared f cmd).1.afterPipe = l.afterPipe from rfl]
  cases hafter : l.afterPipe with
  | true => simpa using hp
  | false =>
    have hmask : cmd.connectionMask = .pipe := by simpa [Locals.piped, hafter] using hpiped
    rw [if_neg Bool.false_ne_true, if_pos ⟨hmask, rfl⟩]
    exact hp.start

end Wired

end Redshell
