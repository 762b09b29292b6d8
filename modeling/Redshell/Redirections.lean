import Redshell.Pipelines

/-! Which files the commands of a queue start with, apart from their pipes. -/
namespace Redshell

/-- A command starts with its own redirections and, where it has none and no pipe, with the
streams of the caller; no number refers to a redirection of another command. -/
structure Isolated (c : Caller) (q : Queue) (start : Start) : Prop where
  input : match start.command.redirectFromPath with
    | some path => ∃ id, c.files.nextFile ≤ id ∧
        start.fds.get 0 = some ⟨id, .named ⟨start.index, false, path⟩⟩
    | none => afterPipeAt q start.index = false → start.fds.get 0 = some c.input
  output : match start.command.redirectToPath with
    | some path => ∃ id, c.files.nextFile ≤ id ∧
        start.fds.get 1 = some ⟨id, .named ⟨start.index, true, path⟩⟩
    | none => start.command.connectionMask ≠ .pipe → start.fds.get 1 = some c.output
  own : ∀ fd id name, start.fds.get fd = some ⟨id, .named name⟩ → c.files.nextFile ≤ id →
    name.command = start.index

/-- The files made since the call are redirections of one command, at some numbers. -/
def Own (first : Nat) (t : Table File) (i : Nat) (fds : Set Int) : Prop :=
  ∀ fd g, t.get fd = some g → first ≤ g.id →
    fd ∈ fds ∧ ∃ output path, g.origin = .named ⟨i, output, path⟩

variable {b : Before} {stack : Stack} {q : Queue} {i k n : Nat} {l : Locals} {f : JobFiles}
  {s : Wiring} {cmd : Command} {host : Host} {c : Caller} {start : Start} {g : File} {fd : Int}
  {fds fds' : Set Int} {first : Nat} {t : Table File}

namespace Own

theorem mono (h : Own first t i fds) (hsub : fds ⊆ fds') : Own first t i fds' := by
  intro fd g hg hid
  obtain ⟨hfd, horigin⟩ := h fd g hg hid
  exact ⟨hsub hfd, horigin⟩

/-- With no new files, they may be any command's. -/
theorem of_empty (h : Own first t k ∅) (i : Nat) : Own first t i ∅ := by
  intro fd g hg hid
  exact absurd (h fd g hg hid).1 (Set.notMem_empty fd)

theorem close (h : Own first t i (insert fd fds)) : Own first (t.close fd) i fds := by
  intro fd' g hg hid
  rw [Table.get_close] at hg
  split at hg
  · cases hg
  · next hne =>
    obtain ⟨hfd, horigin⟩ := h fd' g hg hid
    exact ⟨Set.mem_of_mem_insert_of_ne hfd hne, horigin⟩

theorem dup2 (h : Own first t i fds) (old : Int) (new : Nat) :
    Own first (t.dup2 old new) i (insert (new : Int) fds) := by
  intro fd g hg hid
  cases hold : t.get old with
  | none =>
    rw [Table.dup2, hold] at hg
    exact h.mono (Set.subset_insert _ _) fd g hg hid
  | some g' =>
    rw [Table.get_dup2 hold] at hg
    split at hg
    · next hfd =>
      cases hg
      exact ⟨Set.mem_insert_iff.mpr (.inl hfd), (h old g hold hid).2⟩
    · exact h.mono (Set.subset_insert _ _) fd g hg hid

theorem redirect {f : JobFiles} (h : Own first f.fds i fds) (output : Bool)
    (path : Option CString) :
    Own first (f.redirect i output path).2.fds i
      (insert (f.redirect i output path).1 fds) := by
  cases path with
  | none => exact h.mono (Set.subset_insert _ _)
  | some path =>
    intro fd g hg hid
    rw [Files.redirect, Files.openNew, Table.get_alloc] at hg
    split at hg
    · next hfd =>
      cases hg
      exact ⟨Set.mem_insert_iff.mpr (.inl hfd), output, path, rfl⟩
    · exact h.mono (Set.subset_insert _ _) fd g hg hid

/-- When a command is about to be executed, only its own redirections are new. -/
theorem prepared (h : Own first f.fds k {l.fdIn, l.fdOut}) (cmd : Command) :
    Own first (l.prepared f cmd).2.fds l.i
      {1, 0, (l.prepared f cmd).1.fdOut, (l.prepared f cmd).1.fdIn} := by
  have hclosed : Own first ((f.close l.fdIn).close l.fdOut).fds l.i ∅ := by
    apply of_empty (k := k)
    apply Own.close
    apply Own.close
    exact h.mono (by rw [insert_empty_eq])
  have hin := hclosed.redirect false cmd.redirectFromPath
  have hout := hin.redirect true cmd.redirectToPath
  have h₀ := hout.dup2 (((f.close l.fdIn).close l.fdOut).redirect l.i false
    cmd.redirectFromPath).1 0
  have h₁ := h₀.dup2 ((((f.close l.fdIn).close l.fdOut).redirect l.i false
    cmd.redirectFromPath).2.redirect l.i true cmd.redirectToPath).1 1
  exact h₁.mono (by simp [Locals.prepared])

end Own

/-! Queues without pipes. -/

/-- No command is connected by a pipe to the next one. -/
def Unpiped (q : Queue) : Prop := ∀ cmd ∈ q, cmd.connectionMask ≠ .pipe

namespace Unpiped

theorem afterPipeAt (h : Unpiped q) (i : Nat) : afterPipeAt q i = false := by
  cases i with
  | zero => rfl
  | succ i =>
    rw [Redshell.afterPipeAt]
    cases hcmd : q[i]? with
    | none => rfl
    | some cmd =>
      have hmask := h cmd (List.mem_of_getElem? hcmd)
      simpa using hmask

theorem pipedAt (h : Unpiped q) (hcmd : q[i]? = some cmd) : pipedAt q i = false := by
  have hmask := h cmd (List.mem_of_getElem? hcmd)
  rw [pipedAt_eq hcmd, h.afterPipeAt, Bool.false_or]
  simpa using hmask

/-- The streams are the caller's own at every turn. -/
theorem wiringAt (h : Unpiped q) (b : Before) (i : Nat) :
    (wiringAt b q i).input = b.input ∧ (wiringAt b q i).output = b.output := by
  induction i with
  | zero => exact ⟨rfl, rfl⟩
  | succ i ih =>
    cases hcmd : q[i]? with
    | none => rwa [Redshell.wiringAt, hcmd]
    | some cmd =>
      have hmask := h cmd (List.mem_of_getElem? hcmd)
      rw [wiringAt_succ hcmd, Wiring.step, if_neg (by simp [hmask, h.afterPipeAt])]
      exact ⟨rfl, rfl⟩

/-- At every turn, the new files are at the two numbers that the turn closes. -/
theorem own (h : Unpiped q) {t : Locals × JobFiles} (host : Host)
    (hturn : AtTurn b stack q 0 t.1 t.2) (hown : Own b.first t.2.fds 0 {t.1.fdIn, t.1.fdOut})
    (hk : k ≤ q.length) :
    ∃ i, Own b.first (turnAt host q t k).2.fds i
      {(turnAt host q t k).1.fdIn, (turnAt host q t k).1.fdOut} := by
  induction k with
  | zero => exact ⟨0, hown⟩
  | succ k ih =>
    obtain ⟨i, hi⟩ := ih (by omega)
    have hcmd : q[k]? = some q[k] := List.getElem?_eq_getElem (by omega)
    have hat := turnAt_atTurn host hturn (k := k) (by omega)
    have hnext := turnAt_atTurn host hturn hk
    have hsingle : ¬ (turnAt host q t k).1.piped q[k] = true := by
      rw [hat.piped_eq hcmd, h.pipedAt hcmd]
      exact Bool.false_ne_true
    obtain ⟨hin, hout⟩ := h.wiringAt b (k + 1)
    have h₀ := hnext.wired.input
    have h₁ := hnext.wired.output
    rw [hin] at h₀
    rw [hout] at h₁
    rw [turnAt_succ hcmd, turn, if_neg hsingle] at h₀ h₁ ⊢
    have hprepared := hi.prepared q[k]
    have hrestored := (hprepared.dup2 (turnAt host q t k).1.stdinCopy 0).dup2
      (turnAt host q t k).1.stdoutCopy 1
    refine ⟨(turnAt host q t k).1.i, fun fd g hg hid => ?_⟩
    obtain ⟨hfd, horigin⟩ := hrestored fd g hg hid
    refine ⟨?_, horigin⟩
    rcases hfd with rfl | rfl | rfl | rfl | rfl | rfl
    · cases hg.symm.trans h₁
      exact absurd hid (not_le.mpr b.output_old)
    · cases hg.symm.trans h₀
      exact absurd hid (not_le.mpr b.input_old)
    · cases hg.symm.trans h₁
      exact absurd hid (not_le.mpr b.output_old)
    · cases hg.symm.trans h₀
      exact absurd hid (not_le.mpr b.input_old)
    · exact .inr rfl
    · exact .inl rfl

end Unpiped

/-- The streams of a command on its own, at the wiring of its turn. -/
theorem redirect_input (s : Wiring) (i : Nat) (cmd : Command) :
    (s.redirect i cmd).input =
      cmd.redirectFromPath.elim s.input fun path => ⟨s.nextFile, .named ⟨i, false, path⟩⟩ := by
  rw [Wiring.redirect]
  cases cmd.redirectFromPath <;> cases cmd.redirectToPath <;> rfl

theorem redirect_output (s : Wiring) (i : Nat) (cmd : Command) :
    (s.redirect i cmd).output = cmd.redirectToPath.elim s.output fun path =>
      ⟨s.nextFile + fileCount cmd.redirectFromPath, .named ⟨i, true, path⟩⟩ := by
  rw [Wiring.redirect]
  cases cmd.redirectFromPath <;> cases cmd.redirectToPath <;> rfl

/-- The start of a command in a queue without pipes, from the descriptors of its turn. -/
theorem Unpiped.isolated (h : Unpiped q) (hat : AtTurn c.before stack q i l f) (cmd : Command)
    (hown : Own c.files.nextFile f.fds k {l.fdIn, l.fdOut})
    (process : Option Nat) : Isolated c q ⟨process, i, cmd, (l.prepared f cmd).2.fds⟩ := by
  have hwired := hat.prepared cmd
  have hfirst := hat.wired.first_le
  obtain ⟨hin, hout⟩ := h.wiringAt c.before i
  have h₀ := hwired.input
  have h₁ := hwired.output
  rw [redirect_input] at h₀
  rw [redirect_output] at h₁
  refine ⟨?_, ?_, fun fd id name hg hid => ?_⟩
  · dsimp only
    cases hpath : cmd.redirectFromPath with
    | none =>
      intro _
      rw [hpath, Option.elim_none, hin] at h₀
      exact h₀
    | some path =>
      rw [hpath, Option.elim_some] at h₀
      exact ⟨_, hfirst, h₀⟩
  · dsimp only
    cases hpath : cmd.redirectToPath with
    | none =>
      intro _
      rw [hpath, Option.elim_none, hout] at h₁
      exact h₁
    | some path =>
      rw [hpath, Option.elim_some] at h₁
      exact ⟨_, Nat.le_add_right_of_le hfirst, h₁⟩
  · obtain ⟨_, output, path, horigin⟩ := hown.prepared cmd fd _ hg hid
    cases horigin
    exact hat.index

theorem Caller.entry_own (c : Caller) (stack : Stack) (q : Queue) :
    Own c.files.nextFile (entry stack q c.files).2.fds 0
      {(entry stack q c.files).1.fdIn, (entry stack q c.files).1.fdOut} := by
  have hdup : ∀ t : Table File, (∀ fd g, t.get fd = some g → g.id < c.files.nextFile) → ∀ old : Int,
      ∀ fd g, (t.dup old).2.get fd = some g → g.id < c.files.nextFile := by
    intro t hold old fd g hg
    rw [Table.dup] at hg
    split at hg
    · next g' hg' =>
      rw [Table.get_alloc] at hg
      split at hg
      · cases hg
        exact hold old g hg'
      · exact hold fd g hg
    · exact hold fd g hg
  intro fd g hg hid
  have hlt := hdup _ (hdup _ c.old 0) 1 fd g hg
  omega

/-- Every start of a queue without pipes. -/
theorem Unpiped.starts_isolated (h : Unpiped q) (hhost : host.Succeeds) (c : Caller)
    (stack : Stack) (hstart : start ∈ c.starts host stack q) : Isolated c q start := by
  obtain ⟨i, cmd, hcmd, hchild⟩ := c.mem_starts stack hhost hstart
  have hlt := lt_of_turn hcmd
  have hat := c.turnAt_atTurn host stack hlt.le
  obtain ⟨k, hown⟩ := h.own host (c.entry_atTurn stack q) (c.entry_own stack q) hlt.le
  rcases hchild with rfl | ⟨_, rfl⟩
  · have hisolated := h.isolated hat cmd hown (some i)
    convert hisolated using 1
    rw [← hat.childStart_single hcmd (h.pipedAt hcmd)]
    simp only [childStart, hat.index]
  · exact h.isolated hat cmd hown none

/-! Queues with pipes. -/

/-- The array's garbage has no part in the descriptors. -/
theorem withPipes_files (l l' : Locals) (f : JobFiles) (count : Nat) :
    (l.withPipes f count).2 = (l'.withPipes f count).2 := by
  induction count with
  | zero => rfl
  | succ count ih =>
    rw [Locals.withPipes, Locals.withPipes]
    dsimp only
    rw [ih]

/-- The elements before the array stay. -/
theorem withPipes_neg (l : Locals) (f : JobFiles) (count : Nat) {j : Int} (hj : j < 0) :
    (l.withPipes f count).1.pipes j = l.pipes j := by
  induction count with
  | zero => rfl
  | succ count ih =>
    rw [Locals.withPipes]
    dsimp only
    rw [Function.update_of_ne (by omega), Function.update_of_ne (by omega), ih]

/-- The first command of a queue, when a pipe follows it. -/
theorem entry_ready (stack : Stack) (f : JobFiles) (cmd : Command) :
    (entry stack q f).1.ready (entry stack q f).2 cmd =
      ((entry stack q f).1.prepared (entry stack q f).2 cmd).1.withPipes
        ((entry stack q f).1.prepared (entry stack q f).2 cmd).2 (q.length - 1) := by
  rw [Locals.ready, Locals.started]
  exact if_neg Bool.false_ne_true

/-- When the queue starts with a pipe, some garbage connects the input of the first command. -/
theorem exists_stray (c : Caller) (hcmd : q[0]? = some cmd) (hmask : cmd.connectionMask = .pipe)
    (hlen : 1 < q.length) :
    ∃ stack, (childStart cmd (entry stack q c.files)).fds.get 0 =
      some (readEnd (pipeBase c.before q 0)) := by
  have hpiped : pipedAt q 0 = true := pipedAt_of_pipe hcmd hmask
  have hready := (c.entry_atTurn ⟨fun _ => 0, fun _ => 0⟩ q).ready hcmd hpiped
  have hbase := ready_eq_some (b := c.before) hcmd hpiped
  have hcount := (c.entry_atTurn ⟨fun _ => 0, fun _ => 0⟩ q).ready_count cmd
  obtain ⟨hread, _⟩ := (hready.pipes _ hbase).2 0 (by rw [hcount]; omega)
  rw [entry_ready] at hread
  generalize hnumber : (((entry ⟨fun _ => 0, fun _ => 0⟩ q c.files).1.prepared
      (entry ⟨fun _ => 0, fun _ => 0⟩ q c.files).2 cmd).1.withPipes
        ((entry ⟨fun _ => 0, fun _ => 0⟩ q c.files).1.prepared
          (entry ⟨fun _ => 0, fun _ => 0⟩ q c.files).2 cmd).2 (q.length - 1)).1.pipes
            (2 * ((0 : Nat) : Int)) = number at hread
  refine ⟨⟨fun _ => number, fun _ => 0⟩, ?_⟩
  apply (c.entry_atTurn ⟨fun _ => number, fun _ => 0⟩ q).child_stray hcmd hpiped hlen
  rw [entry_ready, withPipes_neg _ _ _ (by omega), withPipes_files _
    ((entry ⟨fun _ => 0, fun _ => 0⟩ q c.files).1.prepared
      (entry ⟨fun _ => 0, fun _ => 0⟩ q c.files).2 cmd).1]
  exact hread

/-- An input at a pipe's end is not that of a command before which no pipe stands. -/
theorem not_isolated {id : Nat} (hfirst : c.files.nextFile ≤ id)
    (hafter : afterPipeAt q start.index = false)
    (hinput : start.fds.get 0 = some (readEnd id)) : ¬ Isolated c q start := by
  intro h
  have hin := h.input
  cases hpath : start.command.redirectFromPath with
  | none =>
    rw [hpath] at hin
    have hold := c.old 0 c.input c.stdin
    rw [← Option.some.inj (hinput.symm.trans (hin hafter))] at hold
    exact absurd hold (not_lt.mpr hfirst)
  | some path =>
    rw [hpath] at hin
    obtain ⟨id', _, hnamed⟩ := hin
    cases hinput.symm.trans hnamed

/-- With a pipe somewhere, some garbage in the array makes a start that is not isolated. -/
theorem exists_not_isolated (hended : Ended q) (hpipe : ¬ Unpiped q) (hhost : host.Succeeds)
    (c : Caller) : ∃ stack, ∃ start ∈ c.starts host stack q, ¬ Isolated c q start := by
  have hexists : ∃ i : Nat, ∃ cmd : Command, q[i]? = some cmd ∧ cmd.connectionMask = .pipe := by
    simp only [Unpiped, not_forall, not_not] at hpipe
    obtain ⟨cmd, hmem, hmask⟩ := hpipe
    obtain ⟨i, hi⟩ := List.getElem?_of_mem hmem
    exact ⟨i, cmd, hi, hmask⟩
  classical
  obtain ⟨cmd, hcmd, hmask⟩ := Nat.find_spec hexists
  have hmin : ∀ j < Nat.find hexists, ¬ ∃ cmd : Command, q[j]? = some cmd ∧
      cmd.connectionMask = .pipe := fun j hj => Nat.find_min hexists hj
  generalize Nat.find hexists = s at hcmd hmin
  have hafter : afterPipeAt q s = false := by
    cases s with
    | zero => rfl
    | succ s =>
      rw [← Bool.not_eq_true]
      intro hafter
      have hlt := lt_of_turn hcmd
      have hprev : q[s]? = some q[s] := List.getElem?_eq_getElem (by omega)
      exact hmin s (Nat.lt_succ_self s) ⟨q[s], hprev, by
        simpa [afterPipeAt_succ hprev] using hafter⟩
  have hpiped : pipedAt q s = true := pipedAt_of_pipe hcmd hmask
  have hlt := hended s cmd hcmd hmask
  have hfirst := first_le_pipeBase (b := c.before) hcmd hpiped
  cases s with
  | zero =>
    obtain ⟨stack, hinput⟩ := exists_stray c hcmd hmask hlt
    exact ⟨stack, _, c.childStart_mem stack hhost hcmd (.inl hpiped),
      not_isolated hfirst rfl hinput⟩
  | succ s =>
    have hinput := (c.turnAt_atTurn host ⟨fun _ => 0, fun _ => 0⟩
      (lt_of_turn hcmd).le).child_input hcmd hpiped (Nat.succ_pos s)
    refine ⟨_, _, c.childStart_mem ⟨fun _ => 0, fun _ => 0⟩ hhost hcmd (.inl hpiped),
      not_isolated (Nat.le_add_right_of_le hfirst) ?_ hinput⟩
    rwa [childStart_index _ c.files hcmd]

/-- The commands of an accepted line start with their own files, whatever the array holds, exactly
when no two of them are connected by a pipe. -/
theorem execute_isolated_iff (wordexp : Wordexp) (st : Aliases) (created : Nat) (line : CString)
    (hline : ∀ c ∈ line, c ≠ 0) (hmain : line ∈ mainRule) (r : Parse)
    (hparse : parseInput wordexp ⟨st, [], created⟩ line = .ok r)
    (hok : ∀ call ∈ r.session.calls, call.glob = true → call.result ≠ none)
    (host : Host) (hhost : host.Succeeds) (c : Caller) :
    (∀ stack, ∀ start ∈ c.starts host stack r.queue, Isolated c r.queue start) ↔
      ∀ cmd ∈ r.queue, cmd.connectionMask ≠ .pipe := by
  constructor
  · intro hall
    by_contra hpipe
    obtain ⟨stack, start, hstart, hnot⟩ :=
      exists_not_isolated (parseInput_ended hline hmain hparse hok) hpipe hhost c
    exact hnot (hall stack start hstart)
  · intro hunpiped stack start hstart
    exact Unpiped.starts_isolated hunpiped hhost c stack hstart

/-- Three redirected commands without a pipe. -/
theorem execute_isolated_iff_ls :
    ∃ r, parseInput (fun _ text => some [text]) ⟨Dictionary.empty.toAliases, [], 0⟩
        (bytes "ls > f; wc < f & ; ls") = .ok r ∧
      ((∀ stack, ∀ start ∈ terminal.starts willing stack r.queue,
          Isolated terminal r.queue start) ↔
        ∀ cmd ∈ r.queue, cmd.connectionMask ≠ .pipe) := by
  obtain ⟨r, hparse, hok⟩ := exists_parse (fun _ text => some [text])
    ⟨Dictionary.empty.toAliases, [], 0⟩ (bytes "ls > f; wc < f & ; ls") (by decide +kernel)
  exact ⟨r, hparse, execute_isolated_iff _ _ _ _ (by decide +kernel) (by decide +kernel) r hparse
    hok willing willing_succeeds terminal⟩

/-- In `a | b > f; c`, the command after the pipeline writes to `f`. -/
theorem execute_redirects_later :
    ¬ ∀ (wordexp : Wordexp) (st : Aliases) (created : Nat) (line : CString),
      (∀ c ∈ line, c ≠ 0) → line ∈ mainRule →
      ∀ r, parseInput wordexp ⟨st, [], created⟩ line = .ok r →
      (∀ call ∈ r.session.calls, call.glob = true → call.result ≠ none) →
      ∀ host : Host, host.Succeeds → ∀ (c : Caller) (stack : Stack),
      ∀ start ∈ c.starts host stack r.queue, Isolated c r.queue start := by
  intro hall
  have hrun : (parseInput (fun _ text => some [text]) ⟨Dictionary.empty.toAliases, [], 0⟩
      (bytes "a | b > f; c")).map (fun r =>
        (terminal.starts willing zeroStack r.queue).any fun start =>
          start.command.redirectToPath.isNone && start.command.connectionMask != .pipe &&
            start.fds.get 1 != some terminal.output) = .ok true := by decide +kernel
  obtain ⟨r, hparse, hok⟩ := exists_parse (fun _ text => some [text])
    ⟨Dictionary.empty.toAliases, [], 0⟩ (bytes "a | b > f; c") (by decide +kernel)
  have hisolated := hall _ _ _ _ (by decide +kernel) (by decide +kernel) r hparse hok willing
    willing_succeeds terminal zeroStack
  rw [hparse] at hrun
  obtain ⟨start, hstart, hdiffers⟩ := List.any_eq_true.mp (Except.ok.inj hrun)
  simp only [Bool.and_eq_true, bne_iff_ne, Option.isNone_iff_eq_none] at hdiffers
  obtain ⟨⟨hpath, hmask⟩, houtput⟩ := hdiffers
  have hout := (hisolated start hstart).output
  rw [hpath] at hout
  exact houtput (hout hmask)

end Redshell
