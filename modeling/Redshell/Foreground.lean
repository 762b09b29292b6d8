import Redshell.Released
import Redshell.Target

/-! The target of SIGINT over lines executed one after another. -/
namespace Redshell

/-- A line as `run` gets it, with what the system decides while it is executed. -/
structure Call where
  line : CString
  plain : ∀ c ∈ line, c ≠ 0
  wordexp : Wordexp
  host : Host
  stack : Stack

/-- The queue that `parseInput` returns, with the aliases that the shell has then. -/
def Call.queue (call : Call) (shell : Shell) : Queue :=
  match parseInput call.wordexp ⟨shell.aliases, [], 0⟩ call.line with
  | .ok r => r.queue
  | .error _ => queueNew

/-- One iteration of `run`. -/
def Call.iterate (call : Call) (files : JobFiles) (memory : Memory) : JobWorld × Ending Unit :=
  runQueue call.host call.stack (call.queue memory.shell) (shellWorld files memory)

/-- Something holds at each line that is executed. -/
def Throughout (P : Call → JobFiles → Memory → Prop) : List Call → JobFiles → Memory → Prop
  | [], _, _ => True
  | call :: calls, files, memory => P call files memory ∧
    ((call.iterate files memory).2 = .returned () →
      Throughout P calls (call.iterate files memory).1.files (call.iterate files memory).1.memory)

variable {host : Host} {stack : Stack} {q : Queue} {w w' : JobWorld} {f : JobFiles} {k : Nat}
  {cmd : Command} {done : List Done}

theorem Call.queue_eq (call : Call) (shell : Shell) :
    ∃ r, parseInput call.wordexp ⟨shell.aliases, [], 0⟩ call.line = .ok r ∧
      call.queue shell = r.queue := by
  obtain ⟨r, hr, _⟩ := parseInput_spec call.wordexp ⟨shell.aliases, [], 0⟩ call.plain
  exact ⟨r, hr, by rw [Call.queue, hr]⟩

/-! The ways a line can go. -/

/-- The deeds of so many turns come first, and this is what `fg_pid` was set to after them. -/
structure Stored (host : Host) (stack : Stack) (q : Queue) (w : JobWorld) (k : Nat)
    (rest : List Int) : Prop where
  turns : ∃ done, Settling done ∧ deeds (runQueue host stack q w).1 =
    (List.range k).flatMap (deedsAt host q (entry stack q w.files)) ++ done
  values : fgPids (deeds (runQueue host stack q w).1) =
    ((List.range k).filter (pipedAt q)).map host.pid ++ rest
  fgPid : (runQueue host stack q w).1.memory.fgPid =
    fgPidAfter w.memory.fgPid (deeds (runQueue host stack q w).1)

/-- The line `ls | wc`. -/
def pipeCall (host : Host) : Call :=
  ⟨bytes "ls | wc", by decide +kernel, splitBlanks, host, zeroStack⟩

/-- The line `cd /`. -/
def cdCall (host : Host) : Call := ⟨bytes "cd /", by decide +kernel, splitBlanks, host, zeroStack⟩

end Redshell
