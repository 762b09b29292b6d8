import Redshell.JobsStep

/-! The executor's loop from its start to the turn of any command. -/
namespace Redshell

/-- The command before an index is connected to it by a pipe. -/
def afterPipeAt (q : Queue) : Nat → Bool
  | 0 => false
  | i + 1 => q[i]?.any fun cmd => cmd.connectionMask == .pipe

/-- The command at an index is connected by a pipe to one of its neighbours. -/
def pipedAt (q : Queue) (i : Nat) : Bool :=
  afterPipeAt q i || q[i]?.any fun cmd => cmd.connectionMask == .pipe

/-- The variables and the descriptors after the turn of a command that gets a child. -/
def turn (host : Host) (cmd : Command) (t : Locals × JobFiles) : Locals × JobFiles :=
  if t.1.piped cmd then ((t.1.ready t.2 cmd).1.afterPiped host cmd, (t.1.ready t.2 cmd).2)
  else ((t.1.prepared t.2 cmd).1.afterSingle host cmd, t.1.restored (t.1.prepared t.2 cmd).2)

def turnAt (host : Host) (q : Queue) (t : Locals × JobFiles) : Nat → Locals × JobFiles
  | 0 => t
  | i + 1 =>
    match q[i]? with
    | none => turnAt host q t i
    | some cmd => turn host cmd (turnAt host q t i)

/-- What the child of a turn starts. -/
def childStart (cmd : Command) (t : Locals × JobFiles) : Start where
  process := some t.1.i
  index := t.1.i
  command := cmd
  fds :=
    if t.1.piped cmd then ((t.1.ready t.2 cmd).1.connected cmd (t.1.ready t.2 cmd).2).fds
    else (t.1.prepared t.2 cmd).2.fds

def turnDeeds (host : Host) (cmd : Command) (t : Locals × JobFiles) : List Done :=
  if t.1.piped cmd then t.1.pipedDeeds host t.2 cmd else t.1.singleDeeds host t.2 cmd

/-- What is started at the turn of an index. -/
def startsAt (host : Host) (q : Queue) (t : Locals × JobFiles) (i : Nat) : List Start :=
  q[i]?.elim [] fun cmd => host.child i (childStart cmd (turnAt host q t i))

def deedsAt (host : Host) (q : Queue) (t : Locals × JobFiles) (i : Nat) : List Done :=
  q[i]?.elim [] fun cmd => turnDeeds host cmd (turnAt host q t i)

/-- No command before an index stops the loop: its redirections open, and it gets a child. -/
structure Continues (host : Host) (q : Queue) (k : Nat) : Prop where
  opens : ∀ i cmd, i < k → q[i]? = some cmd → host.failsAt i cmd = false
  forks : ∀ i cmd, i < k → q[i]? = some cmd → pipedAt q i = false →
    runsInShell cmd (q.drop (i + 1)) = some false

/-- The variables when the loop starts. -/
structure Starting (q : Queue) (l : Locals) : Prop where
  index : l.i = 0
  count : l.nCommands = q.length
  lastCommand : l.lastCommand = none
  pid : l.pid = -1

/-- The variables that count the turns and remember the last one. -/
structure Counted (host : Host) (q : Queue) (k : Nat) (l₀ l : Locals) : Prop where
  index : l.i = k
  count : l.nCommands = q.length
  last : l.lastCommand = if k = 0 then none else q[k - 1]?
  pid : l.pid = if k = 0 then -1 else host.pid (k - 1)
  stdinCopy : l.stdinCopy = l₀.stdinCopy
  stdoutCopy : l.stdoutCopy = l₀.stdoutCopy
  launched : ∀ j, l.launched j =
    if 0 ≤ j ∧ j < k ∧ pipedAt q j.toNat then host.pid j.toNat else l₀.launched j

variable {host : Host} {q : Queue} {t : Locals × JobFiles} {i k : Nat} {cmd : Command}
  {l l₀ : Locals} {f : JobFiles} {w : JobWorld}

theorem turnAt_succ (hcmd : q[i]? = some cmd) :
    turnAt host q t (i + 1) = turn host cmd (turnAt host q t i) := by
  rw [turnAt, hcmd]

theorem startsAt_eq (hcmd : q[i]? = some cmd) :
    startsAt host q t i = host.child i (childStart cmd (turnAt host q t i)) := by
  rw [startsAt, hcmd, Option.elim_some]

theorem deedsAt_eq (hcmd : q[i]? = some cmd) :
    deedsAt host q t i = turnDeeds host cmd (turnAt host q t i) := by
  rw [deedsAt, hcmd, Option.elim_some]

theorem afterPipeAt_succ (hcmd : q[i]? = some cmd) :
    afterPipeAt q (i + 1) = (cmd.connectionMask == .pipe) := by
  rw [afterPipeAt, hcmd, Option.any_some]

theorem pipedAt_eq (hcmd : q[i]? = some cmd) :
    pipedAt q i = (afterPipeAt q i || cmd.connectionMask == .pipe) := by
  rw [pipedAt, hcmd, Option.any_some]

/-- The command after a pipe. -/
theorem afterPipeAt_of_pipe (hcmd : q[i]? = some cmd) (hmask : cmd.connectionMask = .pipe) :
    afterPipeAt q (i + 1) = true := by
  rw [afterPipeAt_succ hcmd, hmask]
  rfl

theorem pipedAt_of_after (h : afterPipeAt q i = true) : pipedAt q i = true := by
  rw [pipedAt, h, Bool.true_or]

theorem pipedAt_of_pipe (hcmd : q[i]? = some cmd) (hmask : cmd.connectionMask = .pipe) :
    pipedAt q i = true := by
  rw [pipedAt_eq hcmd, hmask]
  simp

/-- A command that no pipe connects. -/
theorem unpiped_of_false (hcmd : q[i]? = some cmd) (h : pipedAt q i = false) :
    afterPipeAt q i = false ∧ cmd.connectionMask ≠ .pipe := by
  rw [pipedAt_eq hcmd] at h
  simpa using h

theorem Continues.mono {j : Nat} (h : Continues host q k) (hj : j ≤ k) : Continues host q j :=
  ⟨fun i cmd hi => h.opens i cmd (by omega), fun i cmd hi => h.forks i cmd (by omega)⟩

namespace Counted

theorem of_starting (h : Starting q l) : Counted host q 0 l l := by
  refine ⟨h.index, h.count, h.lastCommand, h.pid, rfl, rfl, fun j => ?_⟩
  rw [if_neg (by omega)]

theorem afterPipe (h : Counted host q k l₀ l) : l.afterPipe = afterPipeAt q k := by
  rw [Locals.afterPipe, h.last]
  cases k <;> rfl

theorem piped_eq (h : Counted host q k l₀ l) (hcmd : q[k]? = some cmd) :
    l.piped cmd = pipedAt q k := by
  rw [Locals.piped, h.afterPipe, pipedAt_eq hcmd]

theorem next (h : Counted host q k l₀ l) (hcmd : q[k]? = some cmd) (f : JobFiles) :
    Counted host q (k + 1) l₀ (turn host cmd (l, f)).1 := by
  have hpiped := h.piped_eq hcmd
  rw [turn]
  dsimp only
  cases hp : pipedAt q k with
  | true =>
    rw [if_pos (hpiped.trans hp), ready_frame]
    refine ⟨congrArg (· + 1) h.index, h.count, hcmd.symm, congrArg host.pid h.index,
      h.stdinCopy, h.stdoutCopy, fun j => ?_⟩
    change Function.update l.launched l.i (host.pid l.i) j = _
    rw [h.index]
    by_cases hj : j = k
    · rw [hj, Function.update_self, if_pos ⟨by omega, by omega, by simpa using hp⟩,
        Int.toNat_natCast]
    · rw [Function.update_of_ne hj, h.launched j]
      have hlt : j < (k : Int) ↔ j < ((k + 1 : Nat) : Int) := by omega
      simp only [hlt]
  | false =>
    rw [if_neg (by rw [hpiped, hp]; exact Bool.false_ne_true)]
    refine ⟨congrArg (· + 1) h.index, h.count, hcmd.symm, congrArg host.pid h.index,
      h.stdinCopy, h.stdoutCopy, fun j => ?_⟩
    refine (h.launched j).trans ?_
    by_cases hj : j = k
    · rw [hj, if_neg (by omega), if_neg]
      simp [hp]
    · have hlt : j < (k : Int) ↔ j < ((k + 1 : Nat) : Int) := by omega
      simp only [hlt]

end Counted

theorem turnAt_counted (h : Starting q t.1) (hk : k ≤ q.length) :
    Counted host q k t.1 (turnAt host q t k).1 := by
  induction k with
  | zero => exact .of_starting h
  | succ k ih =>
    have hcmd : q[k]? = some q[k] := List.getElem?_eq_getElem (by omega)
    rw [turnAt_succ hcmd]
    exact (ih (by omega)).next hcmd _

/-- A turn that does not stop the loop. -/
theorem commandLoop_turn (queue : Queue) (hw : w.process = none)
    (hok : host.failsAt l.i cmd = false)
    (hforks : l.piped cmd = false → runsInShell cmd queue = some false) :
    ∃ w', run host.system (commandLoop l (cmd :: queue)) w =
        run host.system (commandLoop (turn host cmd (l, w.files)).1 queue) w' ∧
      Moved w (turn host cmd (l, w.files)).2 (turnDeeds host cmd (l, w.files))
        (host.child l.i (childStart cmd (l, w.files))) w' := by
  rw [turn, turnDeeds, childStart]
  dsimp only
  cases hp : l.piped cmd with
  | true => exact commandLoop_piped queue hw hok hp
  | false => exact commandLoop_single hw hok hp (hforks hp)

/-- The run as far as the turn of an index. -/
theorem commandLoop_turnAt (hw : w.process = none) (hl : Starting q l)
    (hcont : Continues host q k) (hk : k ≤ q.length) :
    ∃ w', run host.system (commandLoop l q) w =
        run host.system (commandLoop (turnAt host q (l, w.files) k).1 (q.drop k)) w' ∧
      Moved w (turnAt host q (l, w.files) k).2
        ((List.range k).flatMap (deedsAt host q (l, w.files)))
        ((List.range k).flatMap (startsAt host q (l, w.files))) w' := by
  induction k with
  | zero =>
    refine ⟨w, rfl, hw, rfl, rfl, rfl, ?_, ?_⟩ <;> simp
  | succ k ih =>
    have hcmd : q[k]? = some q[k] := List.getElem?_eq_getElem (by omega)
    obtain ⟨w₁, hrun₁, hmoved₁⟩ := ih
      (hcont.mono (by omega))
      (by omega)
    have hcounted : Counted host q k l (turnAt host q (l, w.files) k).1 :=
      turnAt_counted (t := (l, w.files)) hl (by omega)
    have hok : host.failsAt (turnAt host q (l, w.files) k).1.i q[k] = false :=
      hcounted.index.symm ▸ hcont.opens k q[k] (by omega) hcmd
    obtain ⟨w₂, hrun₂, hmoved₂⟩ := commandLoop_turn (q.drop (k + 1)) hmoved₁.process hok
      fun hp => hcont.forks k q[k] (by omega) hcmd ((hcounted.piped_eq hcmd).symm.trans hp)
    rw [hmoved₁.files] at hrun₂ hmoved₂
    refine ⟨w₂, ?_, ?_⟩
    · rw [hrun₁, List.drop_eq_getElem_cons (by omega), hrun₂, turnAt_succ hcmd]
    · have h := hmoved₁.trans hmoved₂
      rw [List.range_succ, List.flatMap_append, List.flatMap_append, List.flatMap_singleton,
        List.flatMap_singleton, turnAt_succ hcmd, deedsAt_eq hcmd, startsAt_eq hcmd]
      rwa [hcounted.index] at h

/-! The whole run. -/

/-- The variables and the descriptors when the loop starts. -/
def entry (stack : Stack) (q : Queue) (f : JobFiles) : Locals × JobFiles :=
  ({ nCommands := q.length
     i := 0
     pipes := stack.pipes
     fdIn := -1
     fdOut := -1
     stdinCopy := (f.dup 0).1
     stdoutCopy := ((f.dup 0).2.dup 1).1
     launched := stack.launched
     pid := -1
     lastCommand := none },
    ((f.dup 0).2.dup 1).2)

theorem entry_starting (stack : Stack) (q : Queue) (f : JobFiles) :
    Starting q (entry stack q f).1 := ⟨rfl, rfl, rfl, rfl⟩

theorem execute_entry (host : Host) (stack : Stack) (hq : q ≠ []) (hw : w.process = none) :
    ∃ w', run host.system (executeCommandsInQueue stack q) w =
        run host.system (commandLoop (entry stack q w.files).1 q) w' ∧
      Moved w (entry stack q w.files).2 [] [] w' := by
  have hlen : q.length ≠ 0 := by simpa using hq
  refine ⟨((w.dup host.system 0).2.dup host.system 1).2, ?_, hw, rfl, rfl, rfl, ?_, ?_⟩
  · rw [executeCommandsInQueue, if_neg hlen]
    rfl
  · simp [starts, World.dup, World.log, startOf, Host.systemIn, unlimited]
  · simp [deeds, World.dup, World.log, doneOf, deedOf, Host.systemIn, unlimited]

/-- How the run of a queue goes. -/
inductive Course (host : Host) (q : Queue) : Prop where
  | failed (k : Nat) (cmd : Command) (hcont : Continues host q k) (hcmd : q[k]? = some cmd)
      (hfail : host.failsAt k cmd = true)
  | inShell (k : Nat) (cmd : Command) (hcont : Continues host q k) (hcmd : q[k]? = some cmd)
      (hok : host.failsAt k cmd = false) (hsingle : pipedAt q k = false)
      (hshell : runsInShell cmd (q.drop (k + 1)) = some true)
  | nameless (k : Nat) (cmd : Command) (hcont : Continues host q k) (hcmd : q[k]? = some cmd)
      (hok : host.failsAt k cmd = false) (hsingle : pipedAt q k = false)
      (hshell : runsInShell cmd (q.drop (k + 1)) = none)
  | finished (hcont : Continues host q q.length)

theorem continues_succ (hcont : Continues host q k) (hcmd : q[k]? = some cmd)
    (hok : host.failsAt k cmd = false)
    (hforks : pipedAt q k = false → runsInShell cmd (q.drop (k + 1)) = some false) :
    Continues host q (k + 1) := by
  constructor
  · intro i cmd' hi hcmd'
    rcases Nat.lt_succ_iff_lt_or_eq.mp hi with hi | rfl
    · exact hcont.opens i cmd' hi hcmd'
    · obtain rfl := Option.some.inj (hcmd.symm.trans hcmd')
      exact hok
  · intro i cmd' hi hcmd'
    rcases Nat.lt_succ_iff_lt_or_eq.mp hi with hi | rfl
    · exact hcont.forks i cmd' hi hcmd'
    · obtain rfl := Option.some.inj (hcmd.symm.trans hcmd')
      exact hforks

theorem course (host : Host) (q : Queue) : Course host q := by
  have hupto : ∀ k ≤ q.length, Course host q ∨ Continues host q k := by
    intro k
    induction k with
    | zero =>
      intro _
      exact .inr ⟨fun i _ hi => absurd hi (Nat.not_lt_zero i),
        fun i _ hi => absurd hi (Nat.not_lt_zero i)⟩
    | succ k ih =>
      intro hk
      rcases ih (by omega) with hcourse | hcont
      · exact .inl hcourse
      · have hcmd : q[k]? = some q[k] := List.getElem?_eq_getElem (by omega)
        cases hfail : host.failsAt k q[k] with
        | true => exact .inl (.failed k q[k] hcont hcmd hfail)
        | false =>
          cases hpiped : pipedAt q k with
          | true =>
            exact .inr (continues_succ hcont hcmd hfail fun h => by rw [hpiped] at h; cases h)
          | false =>
            cases hshell : runsInShell q[k] (q.drop (k + 1)) with
            | none => exact .inl (.nameless k q[k] hcont hcmd hfail hpiped hshell)
            | some b =>
              cases b with
              | true => exact .inl (.inShell k q[k] hcont hcmd hfail hpiped hshell)
              | false => exact .inr (continues_succ hcont hcmd hfail fun _ => hshell)
  rcases hupto q.length le_rfl with hcourse | hcont
  · exact hcourse
  · exact .finished hcont

variable {stack : Stack}

theorem execute_turnAt (stack : Stack) (hq : q ≠ []) (hw : w.process = none)
    (hcont : Continues host q k) (hk : k ≤ q.length) :
    ∃ w', run host.system (executeCommandsInQueue stack q) w = run host.system
        (commandLoop (turnAt host q (entry stack q w.files) k).1 (q.drop k)) w' ∧
      Moved w (turnAt host q (entry stack q w.files) k).2
        ((List.range k).flatMap (deedsAt host q (entry stack q w.files)))
        ((List.range k).flatMap (startsAt host q (entry stack q w.files))) w' := by
  obtain ⟨w₁, hrun₁, hmoved₁⟩ := execute_entry host stack hq hw
  obtain ⟨w₂, hrun₂, hmoved₂⟩ :=
    commandLoop_turnAt hmoved₁.process (entry_starting stack q w.files) hcont hk
  rw [hmoved₁.files] at hrun₂ hmoved₂
  exact ⟨w₂, hrun₁.trans hrun₂, hmoved₁.trans hmoved₂⟩

/-- The turn at which the run stops, with the variables it has. -/
theorem drop_turn (hcmd : q[k]? = some cmd) : q.drop k = cmd :: q.drop (k + 1) := by
  obtain ⟨hlt, rfl⟩ := List.getElem?_eq_some_iff.mp hcmd
  exact List.drop_eq_getElem_cons hlt

theorem entry_counted (host : Host) (stack : Stack) (f : JobFiles) (hk : k ≤ q.length) :
    Counted host q k (entry stack q f).1 (turnAt host q (entry stack q f) k).1 :=
  turnAt_counted (entry_starting stack q f) hk

theorem lt_of_turn (hcmd : q[k]? = some cmd) : k < q.length :=
  (List.getElem?_eq_some_iff.mp hcmd).1

theorem execute_failed (stack : Stack) (hw : w.process = none) (hcont : Continues host q k)
    (hcmd : q[k]? = some cmd) (hfail : host.failsAt k cmd = true) :
    ∃ w' path, run host.system (executeCommandsInQueue stack q) w =
        (w', .returned (-1, q.drop (k + 1))) ∧
      Moved w
        ((((turnAt host q (entry stack q w.files) k).2.close
          (turnAt host q (entry stack q w.files) k).1.fdIn).close
          (turnAt host q (entry stack q w.files) k).1.fdOut).redirect k false path).2
        ((List.range k).flatMap (deedsAt host q (entry stack q w.files)) ++
          (turnAt host q (entry stack q w.files) k).1.waited
            (turnAt host q (entry stack q w.files) k).2)
        ((List.range k).flatMap (startsAt host q (entry stack q w.files))) w' := by
  have hlt := lt_of_turn hcmd
  have hq : q ≠ [] := List.ne_nil_of_length_pos (by omega)
  obtain ⟨w₁, hrun₁, hmoved₁⟩ := execute_turnAt stack hq hw hcont hlt.le
  have hindex := (entry_counted host stack w.files hlt.le).index
  obtain ⟨w₂, path, hrun₂, hmoved₂⟩ := commandLoop_failed (l := (turnAt host q
    (entry stack q w.files) k).1) (q.drop (k + 1)) hmoved₁.process (hindex.symm ▸ hfail)
  rw [hmoved₁.files, hindex] at hmoved₂
  refine ⟨w₂, path, ?_, by simpa using hmoved₁.trans hmoved₂⟩
  rw [hrun₁, drop_turn hcmd, hrun₂]

theorem execute_nameless (stack : Stack) (hw : w.process = none) (hcont : Continues host q k)
    (hcmd : q[k]? = some cmd) (hok : host.failsAt k cmd = false) (hsingle : pipedAt q k = false)
    (hshell : runsInShell cmd (q.drop (k + 1)) = none) :
    ∃ w', run host.system (executeCommandsInQueue stack q) w = (w', .crashed) ∧
      Moved w
        ((turnAt host q (entry stack q w.files) k).1.prepared
          (turnAt host q (entry stack q w.files) k).2 cmd).2
        ((List.range k).flatMap (deedsAt host q (entry stack q w.files)) ++
          (turnAt host q (entry stack q w.files) k).1.waited
            (turnAt host q (entry stack q w.files) k).2)
        ((List.range k).flatMap (startsAt host q (entry stack q w.files))) w' := by
  have hlt := lt_of_turn hcmd
  have hq : q ≠ [] := List.ne_nil_of_length_pos (by omega)
  obtain ⟨w₁, hrun₁, hmoved₁⟩ := execute_turnAt stack hq hw hcont hlt.le
  have hcounted := entry_counted host stack w.files hlt.le
  obtain ⟨w₂, hrun₂, hmoved₂⟩ := commandLoop_nameless hmoved₁.process
    (hcounted.index.symm ▸ hok) ((hcounted.piped_eq hcmd).trans hsingle) hshell
  rw [hmoved₁.files] at hmoved₂
  refine ⟨w₂, ?_, by simpa using hmoved₁.trans hmoved₂⟩
  rw [hrun₁, drop_turn hcmd, hrun₂]

theorem execute_inShell (stack : Stack) (hw : w.process = none) (hcont : Continues host q k)
    (hcmd : q[k]? = some cmd) (hok : host.failsAt k cmd = false) (hsingle : pipedAt q k = false)
    (hshell : runsInShell cmd (q.drop (k + 1)) = some true) :
    ∃ w₁ w', run host.system (executeCommandsInQueue stack q) w =
        (w', (executeCommand host w.memory.shell cmd).ending) ∧
      Moved w (turnAt host q (entry stack q w.files) k).2
        ((List.range k).flatMap (deedsAt host q (entry stack q w.files)))
        ((List.range k).flatMap (startsAt host q (entry stack q w.files))) w₁ ∧
      RanInShell w₁
        ((turnAt host q (entry stack q w.files) k).1.prepared
          (turnAt host q (entry stack q w.files) k).2 cmd).2
        ((turnAt host q (entry stack q w.files) k).1.waited
            (turnAt host q (entry stack q w.files) k).2 ++
          (executeCommand host w.memory.shell cmd).freed cmd
            ((turnAt host q (entry stack q w.files) k).1.prepared
              (turnAt host q (entry stack q w.files) k).2 cmd).2)
        ⟨none, k, cmd, ((turnAt host q (entry stack q w.files) k).1.prepared
          (turnAt host q (entry stack q w.files) k).2 cmd).2.fds⟩
        (executeCommand host w.memory.shell cmd) w' := by
  have hlt := lt_of_turn hcmd
  have hq : q ≠ [] := List.ne_nil_of_length_pos (by omega)
  obtain ⟨w₁, hrun₁, hmoved₁⟩ := execute_turnAt stack hq hw hcont hlt.le
  have hcounted := entry_counted host stack w.files hlt.le
  obtain ⟨w₂, hrun₂, hran⟩ := commandLoop_inShell hmoved₁.process
    (hcounted.index.symm ▸ hok) ((hcounted.piped_eq hcmd).trans hsingle) hshell
  rw [hmoved₁.files, hmoved₁.shell, hcounted.index] at hran
  rw [hmoved₁.shell] at hrun₂
  refine ⟨w₁, w₂, ?_, hmoved₁, hran⟩
  rw [hrun₁, drop_turn hcmd, hrun₂]

theorem execute_finished (stack : Stack) (hq : q ≠ []) (hw : w.process = none)
    (hcont : Continues host q q.length) :
    ∃ w', run host.system (executeCommandsInQueue stack q) w = (w', .returned (0, [])) ∧
      Moved w
        ((turnAt host q (entry stack q w.files) q.length).1.finished
          (turnAt host q (entry stack q w.files) q.length).2)
        ((List.range q.length).flatMap (deedsAt host q (entry stack q w.files)) ++
          (turnAt host q (entry stack q w.files) q.length).1.finalDeeds
            (turnAt host q (entry stack q w.files) q.length).2)
        ((List.range q.length).flatMap (startsAt host q (entry stack q w.files))) w' := by
  obtain ⟨w₁, hrun₁, hmoved₁⟩ := execute_turnAt stack hq hw hcont le_rfl
  obtain ⟨w₂, hrun₂, hmoved₂⟩ := commandLoop_nil host
    (turnAt host q (entry stack q w.files) q.length).1 hmoved₁.process
  rw [hmoved₁.files] at hmoved₂
  refine ⟨w₂, ?_, by simpa using hmoved₁.trans hmoved₂⟩
  rw [hrun₁, List.drop_length, hrun₂]

end Redshell
