import Redshell.Pipelines

/-! What descriptors 0 and 1 of the shell refer to when the executor returns. -/
namespace Redshell

def Command.redirects (cmd : Command) (output : Bool) : Bool :=
  if output then cmd.redirectToPath.isSome else cmd.redirectFromPath.isSome

/-- A command redirects a stream and, like those after it up to an index, is in a pipeline. -/
def leaks (q : Queue) (output : Bool) : Nat → Bool
  | 0 => false
  | i + 1 => pipedAt q i && (leaks q output i || q[i]?.any fun cmd => cmd.redirects output)

/-- Which of the streams are not the ones before the run. -/
structure Changed (b : Before) (s : Wiring) (input output : Bool) : Prop where
  input : if input then b.first ≤ s.input.id else s.input = b.input
  output : if output then b.first ≤ s.output.id else s.output = b.output

variable {b : Before} {stack : Stack} {q : Queue} {i k n : Nat} {l : Locals} {f : JobFiles}
  {s : Wiring} {cmd : Command} {host : Host} {c : Caller} {fd : Int} {base : Nat}
  {input output : Bool} {g : File}

namespace Changed

theorem redirect (h : Changed b s input output) (hfirst : b.first ≤ s.nextFile) (i : Nat)
    (cmd : Command) :
    Changed b (s.redirect i cmd) (input || cmd.redirects false)
      (output || cmd.redirects true) := by
  have hin := h.input
  have hout := h.output
  rw [Wiring.redirect]
  constructor
  · cases cmd.redirectToPath <;> cases hpath : cmd.redirectFromPath <;>
      simp only [Command.redirects, hpath, Wiring.redirectInput, Wiring.redirectOutput]
    · simpa using hin
    · simpa using hfirst
    · simpa using hin
    · simpa using hfirst
  · cases cmd.redirectFromPath <;> cases hpath : cmd.redirectToPath <;>
      simp only [Command.redirects, hpath, Wiring.redirectInput, Wiring.redirectOutput]
    · simpa using hout
    · simpa using hfirst
    · simpa using hout
    · simpa using Nat.le_succ_of_le hfirst

theorem restore (s : Wiring) : Changed b (s.restore b) false false := ⟨rfl, rfl⟩

theorem input_iff (h : Changed b s input output) : s.input = b.input ↔ input = false := by
  have hin := h.input
  cases input with
  | false => exact iff_of_true hin rfl
  | true =>
    refine iff_of_false (fun he => ?_) Bool.noConfusion
    rw [if_pos rfl, he] at hin
    exact absurd b.input_old (not_lt.mpr hin)

theorem output_iff (h : Changed b s input output) : s.output = b.output ↔ output = false := by
  have hout := h.output
  cases output with
  | false => exact iff_of_true hout rfl
  | true =>
    refine iff_of_false (fun he => ?_) Bool.noConfusion
    rw [if_pos rfl, he] at hout
    exact absurd b.output_old (not_lt.mpr hout)

end Changed

theorem leaks_succ (hcmd : q[i]? = some cmd) (output : Bool) :
    leaks q output (i + 1) = (pipedAt q i && (leaks q output i || cmd.redirects output)) := by
  rw [leaks, hcmd, Option.any_some]

/-- At every turn, the streams that leaked are the ones that changed. -/
theorem wiringAt_changed (b : Before) (hi : i ≤ q.length) :
    Changed b (wiringAt b q i) (leaks q false i) (leaks q true i) := by
  induction i with
  | zero => exact ⟨rfl, rfl⟩
  | succ i ih =>
    have hcmd : q[i]? = some q[i] := List.getElem?_eq_getElem (by omega)
    rw [leaks_succ hcmd, leaks_succ hcmd]
    cases hpiped : pipedAt q i with
    | true =>
      have hredirect := (ih (by omega)).redirect (wiringAt_ordered b q i).first_le i q[i]
      rw [wiringAt_piped hcmd hpiped, Wiring.ready]
      split
      · exact ⟨hredirect.input, hredirect.output⟩
      · exact hredirect
    | false =>
      obtain ⟨hafter, hmask'⟩ := unpiped_of_false hcmd hpiped
      rw [wiringAt_succ hcmd, Wiring.step, if_neg (by simp [hmask', hafter])]
      exact Changed.restore _

/-! The descriptors after a return. -/

theorem Wired.input_iff (h : Wired b l f s) (hchanged : Changed b s input output) :
    f.fds.get 0 = some b.input ↔ input = false := by
  rw [h.input, Option.some.injEq, hchanged.input_iff]

theorem Wired.output_iff (h : Wired b l f s) (hchanged : Changed b s input output) :
    f.fds.get 1 = some b.output ↔ output = false := by
  rw [h.output, Option.some.injEq, hchanged.output_iff]

/-- The pipes' numbers are not those of the copies of the streams. -/
theorem Wired.get_closeAll_old (h : Wired b l f s) (hbase : s.pipes = some base)
    (hold : g.id < b.first) (hfd : f.fds.get fd = some g) :
    (f.closeAll l.pipes (2 * (l.nCommands - 1))).fds.get fd = some g := by
  rw [get_closeAll_of_ne, hfd]
  intro j hj he
  have hfirst := (h.pipes base hbase).1
  obtain ⟨g', hnew, haway⟩ := h.pipes_away hbase hj
  rw [he] at haway
  cases hfd.symm.trans haway.refers
  omega

/-- After the loop, once a pipeline was started, both streams are back. -/
theorem Wired.finished (h : Wired b l f s) (hbase : s.pipes = some base) :
    (l.finished f).fds.get 0 = some b.input ∧ (l.finished f).fds.get 1 = some b.output := by
  have hin := h.get_closeAll_old hbase b.input_old h.stdinCopy.refers
  have hout := h.get_closeAll_old hbase b.output_old h.stdoutCopy.refers
  have hout' : ((f.closeAll l.pipes (2 * (l.nCommands - 1))).dup2 l.stdinCopy 0).fds.get
      l.stdoutCopy = some b.output := by
    refine (Table.get_dup2_of_ne ?_ _).trans hout
    exact h.stdoutCopy.ne_zero
  constructor
  · refine (Table.get_dup2_of_ne (by omega) _).trans ?_
    exact (Table.get_dup2 hin 0 0).trans (if_pos rfl)
  · exact (Table.get_dup2 hout' 1 1).trans (if_pos rfl)

theorem get_closeAll_of_mem {pipes : Int → Int} {count j : Nat} (hj : j < count)
    (hfd : pipes j = fd) : (f.closeAll pipes count).fds.get fd = none := by
  induction count with
  | zero => omega
  | succ count ih =>
    refine (Table.get_close _ _ _).trans ?_
    split
    · rfl
    · next hne =>
      apply ih
      rcases Nat.lt_succ_iff_lt_or_eq.mp hj with hlt | rfl
      · exact hlt
      · exact absurd hfd.symm hne

/-- After the loop, when the numbers 0 and that of its copy were closed, 0 stays closed. -/
theorem finished_closed {j n : Nat} (hj : j < 2 * (l.nCommands - 1)) (hzero : l.pipes j = 0)
    (hn : n < 2 * (l.nCommands - 1)) (hcopy : l.pipes n = l.stdinCopy) :
    (l.finished f).fds.get 0 = none := by
  have h₀ := get_closeAll_of_mem (f := f) hj hzero
  have hin := get_closeAll_of_mem (f := f) hn hcopy
  refine (Table.get_dup2_of_ne (by omega) _).trans ?_
  have hnone : (f.closeAll l.pipes (2 * (l.nCommands - 1))).fds.dup2 l.stdinCopy 0 =
      (f.closeAll l.pipes (2 * (l.nCommands - 1))).fds := by
    rw [Table.dup2, hin]
  rw [← hnone] at h₀
  exact h₀

theorem redirect_changed_of_fails (h : Wired b l f s) (hin : Opened b.first false f.fds l.fdIn)
    (hout : Opened b.first true f.fds l.fdOut) (i : Nat) (path : Option CString)
    (hchanged : Changed b s input output) :
    ((((f.close l.fdIn).close l.fdOut).redirect i false path).2.fds.get 0 = some b.input ↔
        input = false) ∧
      ((((f.close l.fdIn).close l.fdOut).redirect i false path).2.fds.get 1 = some b.output ↔
        output = false) := by
  have hwired := ((h.closeBoth hin hout).redirect i false path).1
  have hchanged' : Changed b { s with nextFile := s.nextFile + fileCount path } input output :=
    ⟨hchanged.input, hchanged.output⟩
  exact ⟨hwired.input_iff hchanged', hwired.output_iff hchanged'⟩

/-- When the executor returns, the streams are those it was called with. -/
def GivesBack (host : Host) (stack : Stack) (q : Queue) (c : Caller) : Prop :=
  ∀ value, (run host.system (executeCommandsInQueue stack q) c.world).2 = .returned value →
    (run host.system (executeCommandsInQueue stack q) c.world).1.files.fds.get 0 = some c.input ∧
      (run host.system (executeCommandsInQueue stack q) c.world).1.files.fds.get 1 = some c.output

/-- No stream leaked from the pipelines just before an index. -/
def Tight (q : Queue) (i : Nat) : Prop := ∀ output, leaks q output i = false

theorem tight_iff : Tight q i ↔ leaks q false i = false ∧ leaks q true i = false := by
  constructor
  · intro h
    exact ⟨h false, h true⟩
  · rintro ⟨hin, hout⟩ output
    cases output
    · exact hin
    · exact hout

/-- An `open` fails. -/
theorem givesBack_failed (stack : Stack) (c : Caller) (hcont : Continues host q k)
    (hcmd : q[k]? = some cmd) (hfail : host.failsAt k cmd = true) :
    GivesBack host stack q c ↔ Tight q k := by
  have hlt := lt_of_turn hcmd
  have hat := c.turnAt_atTurn host stack hlt.le
  obtain ⟨w', path, hrun, hmoved⟩ := execute_failed stack (w := c.world) rfl hcont hcmd hfail
  obtain ⟨hin, hout⟩ := redirect_changed_of_fails hat.wired hat.fdIn hat.fdOut k path
    (wiringAt_changed c.before hlt.le)
  change _ = some c.input ↔ _ at hin
  change _ = some c.output ↔ _ at hout
  have hfiles := hmoved.files
  rw [GivesBack, hrun, hfiles, tight_iff]
  constructor
  · intro h
    obtain ⟨h₀, h₁⟩ := h _ rfl
    exact ⟨hin.mp h₀, hout.mp h₁⟩
  · rintro ⟨h₀, h₁⟩ value _
    exact ⟨hin.mpr h₀, hout.mpr h₁⟩

/-- The last command is executed in the shell, and returns. -/
theorem givesBack_inShell (stack : Stack) (c : Caller) (hcont : Continues host q k)
    (hcmd : q[k]? = some cmd) (hok : host.failsAt k cmd = false) (hsingle : pipedAt q k = false)
    (hshell : runsInShell cmd (q.drop (k + 1)) = some true) :
    GivesBack host stack q c ↔
      ((executeCommand host c.memory.shell cmd).ending = .returned (0, []) →
        Tight q k ∧ ∀ output, cmd.redirects output = false) := by
  have hlt := lt_of_turn hcmd
  have hat := c.turnAt_atTurn host stack hlt.le
  obtain ⟨w₁, w', hrun, _, hran⟩ :=
    execute_inShell stack (w := c.world) rfl hcont hcmd hok hsingle hshell
  have hchanged := (wiringAt_changed c.before hlt.le).redirect
    (wiringAt_ordered c.before q k).first_le k cmd
  have hin := (hat.prepared cmd).input_iff hchanged
  have hout := (hat.prepared cmd).output_iff hchanged
  change _ = some c.input ↔ _ at hin
  change _ = some c.output ↔ _ at hout
  rw [Bool.or_eq_false_iff] at hin hout
  have hfiles := hran.files
  rw [c.world_files] at hfiles
  have hending : ∀ value, (executeCommand host c.memory.shell cmd).ending = .returned value →
      (executeCommand host c.memory.shell cmd).ending = .returned (0, []) := by
    intro value h
    rw [h, Executed.ending_value h]
  have hboth : (w'.files.fds.get 0 = some c.input ∧ w'.files.fds.get 1 = some c.output) ↔
      Tight q k ∧ ∀ output, cmd.redirects output = false := by
    rw [hfiles, hin, hout, tight_iff, Bool.forall_bool]
    tauto
  rw [GivesBack, hrun, hboth]
  change (∀ value, (executeCommand host c.memory.shell cmd).ending = .returned value → _) ↔ _
  constructor
  · intro h hreturned
    exact h _ hreturned
  · intro h value hreturned
    exact h (hending value hreturned)

/-- Without a command in a pipeline, no pipe is made. -/
theorem wiringAt_pipes_none (hsingle : ∀ j < i, pipedAt q j = false) :
    (wiringAt b q i).pipes = none := by
  induction i with
  | zero => rfl
  | succ i ih =>
    have hnone := ih fun j hj => hsingle j (Nat.lt_succ_of_lt hj)
    cases hcmd : q[i]? with
    | none => rwa [wiringAt, hcmd]
    | some cmd =>
      have hpiped := hsingle i (Nat.lt_succ_self i)
      obtain ⟨hafter, hmask'⟩ := unpiped_of_false hcmd hpiped
      rw [wiringAt_succ hcmd, Wiring.step, if_neg (by simp [hmask', hafter]), Wiring.ready,
        if_neg (by simp [hmask'])]
      exact (redirect_pipes _ i cmd).trans hnone

/-- Once a pipeline was started, the pipes are known at the end. -/
theorem wiringAt_pipes_some (b : Before) (hi : i < q.length) (hpiped : pipedAt q i = true) :
    ∃ base, (wiringAt b q q.length).pipes = some base := by
  have hcmd : q[i]? = some q[i] := List.getElem?_eq_getElem hi
  have hbase := ready_eq_some (b := b) hcmd hpiped
  rw [← wiringAt_piped hcmd hpiped] at hbase
  obtain ⟨base, hbase', _⟩ := wiringAt_pipes_mono (j := q.length) hi hbase
  exact ⟨base, hbase'⟩

theorem givesBack_nil (host : Host) (stack : Stack) (c : Caller) : GivesBack host stack [] c :=
  fun _ _ => ⟨c.stdin, c.stdout⟩

/-- The loop goes over all commands. -/
theorem givesBack_finished (stack : Stack) (c : Caller) (hq : q ≠ [])
    (hcont : Continues host q q.length) :
    GivesBack host stack q c ↔
      ((turnAt host q (entry stack q c.files) q.length).1.finished
        (turnAt host q (entry stack q c.files) q.length).2).fds.get 0 = some c.input ∧
      ((turnAt host q (entry stack q c.files) q.length).1.finished
        (turnAt host q (entry stack q c.files) q.length).2).fds.get 1 = some c.output := by
  obtain ⟨w', hrun, hmoved⟩ := execute_finished stack hq (w := c.world) rfl hcont
  have hfiles := hmoved.files
  rw [c.world_files] at hfiles
  rw [GivesBack, hrun, hfiles]
  exact ⟨fun h => h _ rfl, fun h value _ => h⟩

/-- The loop goes over all commands: the array is closed as if it held pipes. -/
theorem givesBack_finished_iff (c : Caller) (hcont : Continues host q q.length) :
    (∀ stack, GivesBack host stack q c) ↔ q.length ≤ 1 ∨ ∃ i < q.length, pipedAt q i = true := by
  by_cases hq : q = []
  · subst hq
    exact iff_of_true (fun stack => givesBack_nil host stack c) (.inl (Nat.zero_le 1))
  have hpos : 0 < q.length := List.length_pos_iff.mpr hq
  constructor
  · intro h
    by_contra hnot
    push Not at hnot
    obtain ⟨hlen, hsingle⟩ := hnot
    have hpipes := wiringAt_pipes_none (b := c.before) (q := q) (i := q.length) fun j hj => by
      simpa using hsingle j hj
    -- The two numbers that the array would have to hold.
    have hback := (givesBack_finished ⟨fun j => if j = 0 then 0 else (c.files.dup 0).1,
      fun _ => 0⟩ c hq hcont).mp (h _)
    have hat := c.turnAt_atTurn host ⟨fun j => if j = 0 then 0 else (c.files.dup 0).1,
      fun _ => 0⟩ (le_refl q.length)
    have hcounted := entry_counted host ⟨fun j => if j = 0 then 0 else (c.files.dup 0).1,
      fun _ => 0⟩ c.files (le_refl q.length)
    have hgarbage := hat.garbage hpipes
    have hcopy := hcounted.stdinCopy
    have hcount := hat.count
    generalize turnAt host q (entry ⟨fun j => if j = 0 then 0 else (c.files.dup 0).1,
      fun _ => 0⟩ q c.files) q.length = t at hback hgarbage hcopy hcount
    have hclosed : (t.1.finished t.2).fds.get 0 = none := by
      apply finished_closed (j := 0) (n := 1)
      · omega
      · rw [hgarbage]
        rfl
      · omega
      · rw [hgarbage, hcopy]
        rfl
    rw [hclosed] at hback
    cases hback.1
  · intro h stack
    rw [givesBack_finished stack c hq hcont]
    have hat := c.turnAt_atTurn host stack (le_refl q.length)
    by_cases hpiped : ∃ i < q.length, pipedAt q i = true
    · obtain ⟨i, hi, hpiped⟩ := hpiped
      obtain ⟨base, hbase⟩ := wiringAt_pipes_some c.before hi hpiped
      exact hat.wired.finished hbase
    · have hlen : q.length = 1 := by
        rcases h with h | h
        · omega
        · exact absurd h hpiped
      have hcount := hat.count
      have hwired := hat.wired.restored
      have hfinished : (turnAt host q (entry stack q c.files) q.length).1.finished
          (turnAt host q (entry stack q c.files) q.length).2 =
          (turnAt host q (entry stack q c.files) q.length).1.restored
            (turnAt host q (entry stack q c.files) q.length).2 := by
        rw [Locals.finished, hcount, hlen]
        rfl
      rw [hfinished]
      exact ⟨hwired.input, hwired.output⟩

/-- The streams come back, whatever the arrays hold, exactly when none leaked before the `open`
that fails, none leaked or is redirected at a last builtin that returns, and after the loop there
are pipes to close, or no room for any. -/
theorem execute_givesBack_iff (host : Host) (q : Queue) (c : Caller) :
    (∀ stack, GivesBack host stack q c) ↔
      (∀ k cmd, Continues host q k → q[k]? = some cmd → host.failsAt k cmd = true → Tight q k) ∧
      (∀ k cmd, Continues host q k → q[k]? = some cmd → host.failsAt k cmd = false →
        pipedAt q k = false → runsInShell cmd (q.drop (k + 1)) = some true →
        (executeCommand host c.memory.shell cmd).ending = .returned (0, []) →
        Tight q k ∧ ∀ output, cmd.redirects output = false) ∧
      (Continues host q q.length → q.length ≤ 1 ∨ ∃ i < q.length, pipedAt q i = true) := by
  constructor
  · intro h
    refine ⟨fun k cmd hcont hcmd hfail => ?_, fun k cmd hcont hcmd hok hsingle hshell => ?_,
      fun hcont => (givesBack_finished_iff c hcont).mp h⟩
    · exact (givesBack_failed ⟨fun _ => 0, fun _ => 0⟩ c hcont hcmd hfail).mp (h _)
    · exact (givesBack_inShell ⟨fun _ => 0, fun _ => 0⟩ c hcont hcmd hok hsingle hshell).mp (h _)
  · rintro ⟨hfailed, hinShell, hfinished⟩
    cases course host q with
    | failed k cmd hcont hcmd hfail =>
      intro stack
      exact (givesBack_failed stack c hcont hcmd hfail).mpr (hfailed k cmd hcont hcmd hfail)
    | inShell k cmd hcont hcmd hok hsingle hshell =>
      intro stack
      exact (givesBack_inShell stack c hcont hcmd hok hsingle hshell).mpr
        (hinShell k cmd hcont hcmd hok hsingle hshell)
    | nameless k cmd hcont hcmd hok hsingle hshell =>
      intro stack value hreturned
      obtain ⟨w', hrun, _⟩ :=
        execute_nameless stack (w := c.world) rfl hcont hcmd hok hsingle hshell
      rw [hrun] at hreturned
      cases hreturned
    | finished hcont => exact (givesBack_finished_iff c hcont).mpr (hfinished hcont)

/-- `echo hi > out` leaves the shell itself writing to `out`. -/
theorem execute_keeps_redirection :
    ¬ ∀ (host : Host) (stack : Stack) (q : Queue) (c : Caller), GivesBack host stack q c := by
  intro hall
  have hback := hall willing zeroStack [⟨0, some (bytes "echo"),
    some [bytes "echo", bytes "hi"], some (bytes "out"), none, .none⟩] terminal (0, [])
    (by decide +kernel)
  exact absurd hback.2 (by decide +kernel)

end Redshell
