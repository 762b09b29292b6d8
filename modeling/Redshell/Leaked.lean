import Redshell.Foreground
import Redshell.Streams

/-! The descriptors that a call of the executor leaves open, and those of a whole session. -/
namespace Redshell

/-- The open numbers besides 0 and 1 are the same. -/
def SameNumbers (f f' : JobFiles) : Prop :=
  ∀ fd : Int, fd ≠ 0 → fd ≠ 1 → ((f'.fds.get fd).isSome ↔ (f.fds.get fd).isSome)

def openCount (f : JobFiles) : Nat := f.fds.countP Option.isSome

/-- When the executor returns, the open numbers besides the streams' are those of the call. -/
def KeepsNumbers (host : Host) (stack : Stack) (q : Queue) (c : Caller) : Prop :=
  ∀ value, (run host.system (executeCommandsInQueue stack q) c.world).2 = .returned value →
    SameNumbers c.files (run host.system (executeCommandsInQueue stack q) c.world).1.files

/-- The loop gets to a last command in the foreground that the shell itself would execute and that
has no name, or is a builtin that does not return. -/
def NeverReturns (host : Host) (shell : Shell) (q : Queue) : Prop :=
  ∃ k cmd, Continues host q k ∧ q[k]? = some cmd ∧ host.failsAt k cmd = false ∧
    pipedAt q k = false ∧ (runsInShell cmd (q.drop (k + 1)) = none ∨
      runsInShell cmd (q.drop (k + 1)) = some true ∧
        (executeCommand host shell cmd).ending ≠ .returned (0, []))

/-- After a line of a session that started with some files open, these are the open ones besides
the streams, and there are no more of them. -/
structure KeepsOpen (start : JobFiles) (call : Call) (files : JobFiles) (memory : Memory) :
    Prop where
  numbers : (call.iterate files memory).2 = .returned () →
    SameNumbers start (call.iterate files memory).1.files
  count : (call.iterate files memory).2 = .returned () →
    openCount (call.iterate files memory).1.files ≤ openCount start

/-- The same lines, with other contents of the uninitialised arrays. -/
def withArrays (arrays : Nat → Stack) (calls : List Call) : List Call :=
  calls.mapIdx fun i call => { call with stack := arrays i }

/-- No line gives a command, up to one after which the shell does not go on. -/
def NothingExecuted : List Call → Shell → Prop
  | [], _ => True
  | call :: calls, shell =>
    call.queue shell = [] ∧ NothingExecuted calls shell ∨
      NeverReturns call.host shell (call.queue shell)

variable {host : Host} {stack : Stack} {q : Queue} {c : Caller} {k : Nat} {cmd : Command}
  {f : JobFiles} {w : JobWorld} {call : Call} {calls : List Call}

theorem sameNumbers_refl (f : JobFiles) : SameNumbers f f := fun _ _ _ => Iff.rfl

/-! One call. -/

/-- The number of the copy of stdin is not open at the call. -/
theorem Caller.copy_closed (c : Caller) (stack : Stack) (q : Queue) :
    c.files.fds.get (entry stack q c.files).1.stdinCopy = none := by
  have hcopy : (entry stack q c.files).1.stdinCopy = c.files.fds.lowest := by
    simp [entry, Files.dup, Table.dup, Table.alloc, c.stdin]
  rw [hcopy]
  exact Table.get_lowest _

/-- A copy that stays open was not open before. -/
theorem Caller.not_sameNumbers (c : Caller) (stack : Stack) (q : Queue)
    (hcopy : f.fds.Away (entry stack q c.files).1.stdinCopy c.input) : ¬ SameNumbers c.files f := by
  intro hsame
  have hopen := (hsame _ hcopy.ne_zero hcopy.ne_one).mp (by rw [hcopy.refers]; rfl)
  rw [c.copy_closed stack q] at hopen
  cases hopen

/-- Where the executor returns with that copy, it does not keep the numbers. -/
theorem not_keepsNumbers {w' : JobWorld} {value : Int × Queue}
    (hrun : run host.system (executeCommandsInQueue stack q) c.world = (w', .returned value))
    (hcopy : w'.files.fds.Away (entry stack q c.files).1.stdinCopy c.input) :
    ¬ KeepsNumbers host stack q c := by
  intro hkeeps
  rw [KeepsNumbers, hrun] at hkeeps
  exact c.not_sameNumbers stack q hcopy (hkeeps value rfl)

theorem Caller.turnAt_copy (c : Caller) (host : Host) (stack : Stack) (hk : k ≤ q.length) :
    (turnAt host q (entry stack q c.files) k).1.stdinCopy =
      (entry stack q c.files).1.stdinCopy :=
  (entry_counted host stack c.files hk).stdinCopy

/-- A failed `open` leaves the copy of stdin open. -/
theorem not_keepsNumbers_failed (stack : Stack) (c : Caller) (hcont : Continues host q k)
    (hcmd : q[k]? = some cmd) (hfail : host.failsAt k cmd = true) :
    ¬ KeepsNumbers host stack q c := by
  have hlt := lt_of_turn hcmd
  have hat := c.turnAt_atTurn host stack hlt.le
  obtain ⟨w', path, hrun, hmoved⟩ := execute_failed stack (w := c.world) rfl hcont hcmd hfail
  have hcopy := ((hat.wired.closeBoth hat.fdIn hat.fdOut).redirect k false path).1.stdinCopy
  rw [c.turnAt_copy host stack hlt.le] at hcopy
  refine not_keepsNumbers hrun ?_
  rw [hmoved.files]
  exact hcopy

/-- So does a builtin that returns in the shell. -/
theorem not_keepsNumbers_inShell (stack : Stack) (c : Caller) (hcont : Continues host q k)
    (hcmd : q[k]? = some cmd) (hok : host.failsAt k cmd = false) (hsingle : pipedAt q k = false)
    (hshell : runsInShell cmd (q.drop (k + 1)) = some true)
    (hreturns : (executeCommand host c.memory.shell cmd).ending = .returned (0, [])) :
    ¬ KeepsNumbers host stack q c := by
  have hlt := lt_of_turn hcmd
  have hat := c.turnAt_atTurn host stack hlt.le
  obtain ⟨w₁, w', hrun, _, hran⟩ :=
    execute_inShell stack (w := c.world) rfl hcont hcmd hok hsingle hshell
  have hcopy := (hat.prepared cmd).stdinCopy
  change Table.Away _ (turnAt host q (entry stack q c.files) k).1.stdinCopy _ at hcopy
  rw [c.turnAt_copy host stack hlt.le] at hcopy
  change run _ _ _ = (w', (executeCommand host c.memory.shell cmd).ending) at hrun
  rw [hreturns] at hrun
  refine not_keepsNumbers hrun ?_
  rw [hran.files]
  exact hcopy

/-- After the loop only the pipes are closed, or, where there were none, what the array holds. -/
theorem finished_copy (c : Caller) (host : Host) (q : Queue) :
    ((turnAt host q (entry zeroStack q c.files) q.length).1.finished
      (turnAt host q (entry zeroStack q c.files) q.length).2).fds.Away
        (entry zeroStack q c.files).1.stdinCopy c.input := by
  have hat := c.turnAt_atTurn (q := q) host zeroStack le_rfl
  rw [← c.turnAt_copy host zeroStack (le_refl q.length)]
  generalize turnAt host q (entry zeroStack q c.files) q.length = t at hat
  have haway := hat.wired.stdinCopy
  have hclosed : (t.2.closeAll t.1.pipes (2 * (t.1.nCommands - 1))).fds.get t.1.stdinCopy =
      some c.input := by
    cases hpipes : (wiringAt c.before q q.length).pipes with
    | none =>
      rw [hat.garbage hpipes, get_closeAll_of_ne fun j _ => haway.ne_zero.symm]
      exact haway.refers
    | some base => exact hat.wired.get_closeAll_old hpipes c.before.input_old haway.refers
  have hcopy : Table.Away (t.2.closeAll t.1.pipes (2 * (t.1.nCommands - 1))).fds t.1.stdinCopy
      c.input := ⟨hclosed, haway.ne_zero, haway.ne_one⟩
  exact (hcopy.dup2 _ (.inl rfl)).dup2 _ (.inr rfl)

theorem not_keepsNumbers_finished (c : Caller) (hq : q ≠ []) (hcont : Continues host q q.length) :
    ¬ KeepsNumbers host zeroStack q c := by
  obtain ⟨w', hrun, hmoved⟩ := execute_finished zeroStack hq (w := c.world) rfl hcont
  refine not_keepsNumbers hrun ?_
  rw [hmoved.files]
  exact finished_copy c host q

/-- Without a command nothing is opened. -/
theorem keepsNumbers_nil (host : Host) (stack : Stack) (c : Caller) :
    KeepsNumbers host stack [] c := fun _ _ => sameNumbers_refl c.files

theorem NeverReturns.not_returned {value : Int × Queue} (stack : Stack) (hw : w.process = none)
    (h : NeverReturns host w.memory.shell q) :
    (run host.system (executeCommandsInQueue stack q) w).2 ≠ .returned value := by
  obtain ⟨k, cmd, hcont, hcmd, hok, hsingle, hshell | ⟨hshell, hending⟩⟩ := h
  · obtain ⟨w', hrun, _⟩ := execute_nameless stack hw hcont hcmd hok hsingle hshell
    rw [hrun]
    rintro ⟨⟩
  · obtain ⟨w₁, w', hrun, _⟩ := execute_inShell stack hw hcont hcmd hok hsingle hshell
    rw [hrun]
    intro hreturned
    change (executeCommand host w.memory.shell cmd).ending = .returned value at hreturned
    rw [hreturned, Executed.ending_value hreturned] at hending
    exact hending rfl

/-- Every return from commands leaves a descriptor open. -/
theorem keepsNumbers_iff (host : Host) (q : Queue) (c : Caller) :
    (∀ stack, KeepsNumbers host stack q c) ↔ q = [] ∨ NeverReturns host c.memory.shell q := by
  constructor
  · intro h
    by_cases hq : q = []
    · exact .inl hq
    right
    cases course host q with
    | failed k cmd hcont hcmd hfail =>
      exact absurd (h zeroStack) (not_keepsNumbers_failed zeroStack c hcont hcmd hfail)
    | inShell k cmd hcont hcmd hok hsingle hshell =>
      refine ⟨k, cmd, hcont, hcmd, hok, hsingle, .inr ⟨hshell, fun hreturns => ?_⟩⟩
      exact not_keepsNumbers_inShell zeroStack c hcont hcmd hok hsingle hshell hreturns
        (h zeroStack)
    | nameless k cmd hcont hcmd hok hsingle hshell =>
      exact ⟨k, cmd, hcont, hcmd, hok, hsingle, .inl hshell⟩
    | finished hcont => exact absurd (h zeroStack) (not_keepsNumbers_finished c hq hcont)
  · rintro (rfl | hnever) stack
    · exact keepsNumbers_nil host stack c
    · intro value hreturned
      exact absurd hreturned (hnever.not_returned stack (w := c.world) rfl)

/-! A session. -/

theorem Call.iterate_nil (call : Call) (files : JobFiles) {memory : Memory}
    (hempty : call.queue memory.shell = []) :
    call.iterate files memory = (shellWorld files memory, .returned ()) := by
  rw [Call.iterate, hempty]
  rfl

/-- An iteration that is completed has the descriptors that the executor left. -/
theorem runQueue_files {value : Int × Queue}
    (h : (run host.system (executeCommandsInQueue stack q) w).2 = .returned value) :
    (runQueue host stack q w).1.files =
      (run host.system (executeCommandsInQueue stack q) w).1.files := by
  cases hrun : run host.system (executeCommandsInQueue stack q) w with
  | mk w' ending =>
    rw [hrun] at h
    obtain rfl : ending = .returned value := h
    obtain ⟨w'', hout, _, hfiles⟩ := runQueue_of_returned hrun
    rw [hout]
    exact hfiles

theorem withArrays_cons (arrays : Nat → Stack) (call : Call) (calls : List Call) :
    withArrays arrays (call :: calls) =
      { call with stack := arrays 0 } :: withArrays (fun i => arrays (i + 1)) calls := by
  rw [withArrays, withArrays, List.mapIdx_cons]

/-- A line without commands changes nothing. -/
theorem throughout_nil {P : Call → JobFiles → Memory → Prop} {files : JobFiles} {memory : Memory}
    (call : Call) (hempty : call.queue memory.shell = []) :
    Throughout P (call :: calls) files memory ↔
      P call files memory ∧ Throughout P calls files memory := by
  rw [Throughout, call.iterate_nil files hempty]
  exact and_congr_right fun _ => forall_prop_of_true rfl

theorem keepsOpen_nil (hempty : call.queue c.memory.shell = []) :
    KeepsOpen c.files call c.files c.memory := by
  have hiterate := call.iterate_nil c.files hempty
  constructor
  · intro _
    rw [hiterate]
    exact sameNumbers_refl c.files
  · intro _
    rw [hiterate]
    exact le_rfl

/-- From commands that never return, the session does not go on. -/
theorem NeverReturns.not_completed (call : Call) (c : Caller)
    (h : NeverReturns call.host c.memory.shell (call.queue c.memory.shell)) :
    (call.iterate c.files c.memory).2 ≠ .returned () := by
  intro hcompleted
  obtain ⟨value, hreturned⟩ := runQueue_returns_iff.mp hcompleted
  exact h.not_returned call.stack (w := c.world) rfl hreturned

/-- The lines of a session keep the open numbers, whatever the arrays hold, exactly when none is
executed from which the shell returns. -/
theorem session_keepsOpen_iff (c : Caller) (calls : List Call) :
    (∀ arrays, Throughout (KeepsOpen c.files) (withArrays arrays calls) c.files c.memory) ↔
      NothingExecuted calls c.memory.shell := by
  induction calls with
  | nil => exact iff_of_true (fun _ => trivial) trivial
  | cons call calls ih =>
    constructor
    · intro h
      by_cases hempty : call.queue c.memory.shell = []
      · left
        refine ⟨hempty, ih.mp fun arrays => ?_⟩
        have hall := h fun i => i.casesOn zeroStack arrays
        rw [withArrays_cons] at hall
        exact ((throughout_nil { call with stack := zeroStack } hempty).mp hall).2
      · right
        refine ((keepsNumbers_iff call.host (call.queue c.memory.shell) c).mp
          fun stack value hreturned => ?_).resolve_left hempty
        have hall := h fun _ => stack
        rw [withArrays_cons] at hall
        have hsame := hall.1.numbers (runQueue_returns_iff.mpr ⟨value, hreturned⟩)
        rw [← runQueue_files hreturned]
        exact hsame
    · rintro (⟨hempty, hrest⟩ | hnever) arrays
      · rw [withArrays_cons]
        exact (throughout_nil { call with stack := arrays 0 } hempty).mpr
          ⟨keepsOpen_nil hempty, ih.mpr hrest _⟩
      · rw [withArrays_cons]
        have hleft := NeverReturns.not_completed { call with stack := arrays 0 } c hnever
        exact ⟨⟨fun hreturned => absurd hreturned hleft, fun hreturned => absurd hreturned hleft⟩,
          fun hreturned => absurd hreturned hleft⟩

/-- Whatever the arrays hold, the open numbers besides the streams' are kept by a call exactly when
it has no commands or does not return, and by a session when no line of it is executed from which
the shell returns. -/
theorem execute_keepsNumbers_iff (c : Caller) :
    (∀ host q, (∀ stack, KeepsNumbers host stack q c) ↔
      q = [] ∨ NeverReturns host c.memory.shell q) ∧
    ∀ calls,
      (∀ arrays, Throughout (KeepsOpen c.files) (withArrays arrays calls) c.files c.memory) ↔
        NothingExecuted calls c.memory.shell :=
  ⟨fun host q => keepsNumbers_iff host q c, session_keepsOpen_iff c⟩

/-- After `ls` both copies of the streams stay open. -/
theorem execute_leaves_copies :
    ¬ ∀ (host : Host) (stack : Stack) (q : Queue) (c : Caller), KeepsNumbers host stack q c := by
  intro hall
  have hsame := hall willing zeroStack [commandOf 0 [bytes "ls"] .none] terminal (0, [])
    (by decide +kernel) 3 (by decide) (by decide)
  exact absurd hsame (by decide +kernel)

end Redshell
