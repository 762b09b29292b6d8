import Redshell.Streams

/-! Where the shell holds the write ends of the pipes made in a call. -/
namespace Redshell

/-- The write ends of the pipes from a number on are open at these descriptors only. -/
def WriteEndsAt (first : Nat) (numbers : Set Int) (t : Table File) : Prop :=
  ∀ fd id, first ≤ id → t.get fd = some (writeEnd id) → fd ∈ numbers

/-- The descriptors that the executor closes after its loop. -/
def Locals.pipeNumbers (l : Locals) : Set Int :=
  { fd | ∃ j : Nat, j < 2 * (l.nCommands - 1) ∧ l.pipes j = fd }

/-- The command at an index is the first one of a pipeline. -/
def StartsPipeline (q : Queue) (i : Nat) : Prop :=
  afterPipeAt q i = false ∧ ∃ cmd, q[i]? = some cmd ∧ cmd.connectionMask = .pipe

variable {b : Before} {stack : Stack} {q : Queue} {i j k : Nat} {l : Locals} {f : JobFiles}
  {s : Wiring} {cmd : Command} {host : Host} {base first : Nat} {c : Caller} {fd : Int} {g : File}
  {t : Table File} {numbers : Set Int} {old : Int} {n : Nat}

namespace WriteEndsAt

theorem mono {numbers' : Set Int} (h : WriteEndsAt first numbers t) (hsub : numbers ⊆ numbers') :
    WriteEndsAt first numbers' t := fun fd id hid hfd => hsub (h fd id hid hfd)

theorem close (h : WriteEndsAt first numbers t) (old : Int) :
    WriteEndsAt first numbers (t.close old) := by
  intro fd id hid hfd
  rw [Table.get_close] at hfd
  split at hfd
  · cases hfd
  · exact h fd id hid hfd

theorem alloc (h : WriteEndsAt first numbers t) (hg : ∀ id, first ≤ id → g ≠ writeEnd id) :
    WriteEndsAt first numbers (t.alloc g).2 := by
  intro fd id hid hfd
  rw [Table.get_alloc] at hfd
  split at hfd
  · exact absurd (Option.some.inj hfd) (hg id hid)
  · exact h fd id hid hfd

theorem alloc_writeEnd (h : WriteEndsAt first numbers t) (id : Nat) :
    WriteEndsAt first (insert (t.alloc (writeEnd id)).1 numbers) (t.alloc (writeEnd id)).2 := by
  intro fd id' hid hfd
  rw [Table.get_alloc] at hfd
  split at hfd
  · next heq => exact .inl heq
  · exact .inr (h fd id' hid hfd)

theorem dup2 (h : WriteEndsAt first numbers t)
    (hold : ∀ id, first ≤ id → t.get old ≠ some (writeEnd id)) (new : Nat) :
    WriteEndsAt first numbers (t.dup2 old new) := by
  intro fd id hid hfd
  rw [Table.dup2] at hfd
  split at hfd
  · next g hg =>
    rw [Table.get_put] at hfd
    split at hfd
    · exact absurd (hg.trans hfd) (hold id hid)
    · exact h fd id hid hfd
  · exact h fd id hid hfd

/-- Closing all the descriptors where they are open. -/
theorem closeAll {pipes : Int → Int} {count : Nat}
    (h : WriteEndsAt first { fd | ∃ j : Nat, j < count ∧ pipes j = fd } f.fds) :
    WriteEndsAt first ∅ (f.closeAll pipes count).fds := by
  intro fd id hid hfd
  by_cases hmem : ∃ j : Nat, j < count ∧ pipes j = fd
  · obtain ⟨j, hj, he⟩ := hmem
    cases (get_closeAll_of_mem hj he).symm.trans hfd
  · rw [get_closeAll_of_ne fun j hj he => hmem ⟨j, hj, he⟩] at hfd
    exact absurd (h fd id hid hfd) hmem

end WriteEndsAt

/-! What a turn does to the write ends. -/

theorem named_ne_writeEnd (id : Nat) (name : Redirection) (id' : Nat) :
    (⟨id, .named name⟩ : File) ≠ writeEnd id' := by
  rintro ⟨⟩

/-- A redirection is not the end of a pipe. -/
theorem Opened.ne_pipeEnd {output : Bool} (h : Opened first output t fd)
    (hg : ∃ write, g.origin = .pipeEnd write) : t.get fd ≠ some g := by
  obtain ⟨write, hwrite⟩ := hg
  rintro hfd
  rcases h with rfl | ⟨id, i, path, _, haway⟩
  · rw [Table.get_of_neg (by omega)] at hfd
    cases hfd
  · rw [haway.refers] at hfd
    obtain rfl := Option.some.inj hfd
    cases hwrite

theorem WriteEndsAt.redirect (h : WriteEndsAt first numbers f.fds) (i : Nat) (output : Bool)
    (path : Option CString) : WriteEndsAt first numbers (f.redirect i output path).2.fds := by
  cases path with
  | none => exact h
  | some path => exact h.alloc fun id _ => named_ne_writeEnd f.nextFile ⟨i, output, path⟩ id

theorem Opened.redirect {output : Bool} (h : Opened b.first output f.fds fd) (i : Nat)
    (output' : Bool) (path : Option CString) :
    Opened b.first output (f.redirect i output' path).2.fds fd := by
  cases path with
  | none => exact h
  | some path => exact h.alloc _

/-- The redirections of a command, before the streams follow them. -/
theorem Wired.redirects (h : Wired b l f s) (i : Nat) (cmd : Command) :
    Opened b.first false ((f.redirect i false cmd.redirectFromPath).2.redirect i true
        cmd.redirectToPath).2.fds (f.redirect i false cmd.redirectFromPath).1 ∧
      Opened b.first true ((f.redirect i false cmd.redirectFromPath).2.redirect i true
        cmd.redirectToPath).2.fds ((f.redirect i false cmd.redirectFromPath).2.redirect i true
        cmd.redirectToPath).1 := by
  obtain ⟨h₁, hin⟩ := h.redirect i false cmd.redirectFromPath
  obtain ⟨_, hout⟩ := h₁.redirect i true cmd.redirectToPath
  exact ⟨(hin.opened h.first_le).redirect i true cmd.redirectToPath,
    hout.opened (Nat.le_add_right_of_le h.first_le)⟩

theorem Wired.prepared_writeEnds (h : Wired b l f s) (hin : Opened b.first false f.fds l.fdIn)
    (hout : Opened b.first true f.fds l.fdOut) (cmd : Command)
    (hends : WriteEndsAt b.first numbers f.fds) :
    WriteEndsAt b.first numbers (l.prepared f cmd).2.fds := by
  have hwired := h.closeBoth hin hout
  have hends₁ := (hends.close l.fdIn).close l.fdOut
  rw [Locals.prepared]
  change WriteEndsAt b.first numbers ((f.close l.fdIn).close l.fdOut).fds at hends₁
  generalize (f.close l.fdIn).close l.fdOut = f₁ at hwired hends₁
  obtain ⟨hopened, hopened'⟩ := hwired.redirects l.i cmd
  have hends₂ := (hends₁.redirect l.i false cmd.redirectFromPath).redirect l.i true
    cmd.redirectToPath
  refine (hends₂.dup2 (fun id _ => ?_) 0).dup2 (fun id _ => ?_) 1
  · exact hopened.ne_pipeEnd ⟨true, rfl⟩
  · exact (hopened'.dup2 _ (.inl rfl)).ne_pipeEnd ⟨true, rfl⟩

/-- Restoring the streams from copies of older files. -/
theorem WriteEndsAt.restored (h : WriteEndsAt first numbers f.fds)
    (hin : ∀ g, f.fds.get l.stdinCopy = some g → g.id < first)
    (hout : ∀ g, f.fds.get l.stdoutCopy = some g → g.id < first) (hne : l.stdoutCopy ≠ 0) :
    WriteEndsAt first numbers (l.restored f).fds := by
  refine (h.dup2 (fun id hid hget => ?_) 0).dup2 (fun id hid hget => ?_) 1
  · exact absurd hid (not_le.mpr (hin _ hget))
  · rw [Table.get_dup2_of_ne hne] at hget
    exact absurd hid (not_le.mpr (hout _ hget))

theorem Wired.restored_writeEnds (h : Wired b l f s) (hends : WriteEndsAt b.first numbers f.fds) :
    WriteEndsAt b.first numbers (l.restored f).fds := by
  refine hends.restored (fun g hget => ?_) (fun g hget => ?_) h.stdoutCopy.ne_zero
  · cases h.stdinCopy.refers.symm.trans hget
    exact b.input_old
  · cases h.stdoutCopy.refers.symm.trans hget
    exact b.output_old

/-- The new pipes are where the array says. -/
theorem WriteEndsAt.withPipes (h : WriteEndsAt first ∅ f.fds) (l : Locals) (count : Nat) :
    WriteEndsAt first { fd | ∃ j : Nat, j < 2 * count ∧ (l.withPipes f count).1.pipes j = fd }
      (l.withPipes f count).2.fds := by
  induction count with
  | zero => exact h.mono (Set.empty_subset _)
  | succ count ih =>
    rw [Locals.withPipes]
    dsimp only
    generalize l.withPipes f count = made at ih ⊢
    have hread := ih.alloc (g := readEnd made.2.nextFile) fun id _ => by rintro ⟨⟩
    refine (hread.alloc_writeEnd made.2.nextFile).mono fun fd hfd => ?_
    rcases hfd with rfl | ⟨j, hj, rfl⟩
    · refine ⟨2 * count + 1, by omega, ?_⟩
      rw [Nat.cast_add, Nat.cast_mul, Nat.cast_two, Nat.cast_one, Function.update_self]
      rfl
    · refine ⟨j, by omega, ?_⟩
      rw [Function.update_of_ne (by omega), Function.update_of_ne (by omega)]

/-! The write ends at every turn. -/

/-- The write ends are where the array says, and nowhere before the first pipeline. -/
structure HoldsPipes (q : Queue) (first k : Nat) (l : Locals) (f : JobFiles) : Prop where
  held : WriteEndsAt first l.pipeNumbers f.fds
  none : (∀ i < k, ¬ StartsPipeline q i) → WriteEndsAt first ∅ f.fds

namespace HoldsPipes

theorem of_none (h : WriteEndsAt first ∅ f.fds) : HoldsPipes q first k l f :=
  ⟨h.mono (Set.empty_subset _), fun _ => h⟩

theorem next_piped (h : HoldsPipes q b.first k l f) (hat : AtTurn b stack q k l f)
    (hcmd : q[k]? = some cmd) (hpiped : pipedAt q k = true)
    (hone : StartsPipeline q k → ∀ i < k, ¬ StartsPipeline q i) (host : Host) :
    HoldsPipes q b.first (k + 1) ((l.ready f cmd).1.afterPiped host cmd) (l.ready f cmd).2 := by
  have hprepared : ∀ numbers, WriteEndsAt b.first numbers f.fds →
      WriteEndsAt b.first numbers (l.prepared f cmd).2.fds := fun numbers =>
    hat.wired.prepared_writeEnds hat.fdIn hat.fdOut cmd
  rw [Locals.ready, Locals.started]
  split
  · exact ⟨hprepared _ h.held, fun hnone => hprepared _ (h.none fun i hi => hnone i (by omega))⟩
  · next hafter =>
    have hfalse : afterPipeAt q k = false := by
      rw [← hat.afterPipe]
      exact Bool.eq_false_iff.mpr hafter
    have hmask : cmd.connectionMask = .pipe := by
      rw [pipedAt_eq hcmd, hfalse, Bool.false_or] at hpiped
      simpa using hpiped
    have hstart : StartsPipeline q k := ⟨hfalse, cmd, hcmd, hmask⟩
    refine ⟨?_, fun hnone => absurd hstart (hnone k (Nat.lt_succ_self k))⟩
    have hheld := (hprepared ∅ (h.none (hone hstart))).withPipes (l.prepared f cmd).1
      ((l.prepared f cmd).1.nCommands - 1)
    rwa [Locals.pipeNumbers, Locals.afterPiped, Locals.next, withPipes_frame]

theorem next_single (h : HoldsPipes q b.first k l f) (hat : AtTurn b stack q k l f)
    (cmd : Command) (host : Host) :
    HoldsPipes q b.first (k + 1) ((l.prepared f cmd).1.afterSingle host cmd)
      (l.restored (l.prepared f cmd).2) := by
  have hnext : ∀ numbers, WriteEndsAt b.first numbers f.fds →
      WriteEndsAt b.first numbers (l.restored (l.prepared f cmd).2).fds := fun numbers hends =>
    (hat.prepared cmd).restored_writeEnds
      (hat.wired.prepared_writeEnds hat.fdIn hat.fdOut cmd hends)
  exact ⟨hnext _ h.held, fun hnone => hnext _ (h.none fun i hi => hnone i (by omega))⟩

end HoldsPipes

theorem Caller.entry_writeEnds (c : Caller) (stack : Stack) (q : Queue) :
    WriteEndsAt c.files.nextFile ∅ (entry stack q c.files).2.fds := by
  have hold : WriteEndsAt c.files.nextFile ∅ c.files.fds := by
    intro fd id hid hfd
    exact absurd hid (not_le.mpr (c.old fd _ hfd))
  have hstdout := Table.get_alloc_of_open (g := c.input) c.stdout
  have hfiles : (entry stack q c.files).2.fds =
      ((c.files.fds.alloc c.input).2.alloc c.output).2 := by
    simp [entry, Files.dup, Table.dup, c.stdin, hstdout]
  rw [hfiles]
  refine (hold.alloc fun id hid he => ?_).alloc fun id hid he => ?_
  · have hlt := c.old 0 c.input c.stdin
    rw [he] at hlt
    exact absurd hid (not_le.mpr hlt)
  · have hlt := c.old 1 c.output c.stdout
    rw [he] at hlt
    exact absurd hid (not_le.mpr hlt)

/-- With one pipeline in the queue, the shell holds no write ends but those in the array. -/
theorem Caller.turnAt_holdsPipes (c : Caller) (host : Host) (stack : Stack)
    (hone : ∀ i j, StartsPipeline q i → StartsPipeline q j → i = j) (hk : k ≤ q.length) :
    HoldsPipes q c.files.nextFile k (turnAt host q (entry stack q c.files) k).1
      (turnAt host q (entry stack q c.files) k).2 := by
  induction k with
  | zero => exact .of_none (c.entry_writeEnds stack q)
  | succ k ih =>
    have hcmd : q[k]? = some q[k] := List.getElem?_eq_getElem (by omega)
    have hat := c.turnAt_atTurn (q := q) host stack (Nat.le_of_succ_le hk)
    have hholds := ih (by omega)
    rw [turnAt_succ hcmd, turn]
    cases hpiped : pipedAt q k with
    | true =>
      rw [if_pos ((hat.piped_eq hcmd).trans hpiped)]
      refine hholds.next_piped (b := c.before) hat hcmd hpiped (fun hstart i hi hearlier => ?_) host
      have := hone i k hearlier hstart
      omega
    | false =>
      rw [if_neg (by rw [hat.piped_eq hcmd, hpiped]; exact Bool.false_ne_true)]
      exact hholds.next_single (b := c.before) hat q[k] host

/-- After the loop the array's descriptors are closed, and the shell holds no write end. -/
theorem Caller.finished_writeEnds (c : Caller) (host : Host) (stack : Stack)
    (hone : ∀ i j, StartsPipeline q i → StartsPipeline q j → i = j) :
    WriteEndsAt c.files.nextFile ∅ ((turnAt host q (entry stack q c.files) q.length).1.finished
      (turnAt host q (entry stack q c.files) q.length).2).fds := by
  have hat := c.turnAt_atTurn (q := q) host stack le_rfl
  have hheld := (c.turnAt_holdsPipes host stack hone le_rfl).held
  generalize turnAt host q (entry stack q c.files) q.length = t at hat hheld
  have hclosed : ∀ fd g, (t.2.closeAll t.1.pipes (2 * (t.1.nCommands - 1))).fds.get fd = some g →
      t.2.fds.get fd = some g := by
    intro fd g hget
    by_cases hmem : ∃ j : Nat, j < 2 * (t.1.nCommands - 1) ∧ t.1.pipes j = fd
    · obtain ⟨j, hj, he⟩ := hmem
      cases (get_closeAll_of_mem hj he).symm.trans hget
    · rwa [get_closeAll_of_ne fun j hj he => hmem ⟨j, hj, he⟩] at hget
  rw [Locals.finished]
  refine hheld.closeAll.restored (fun g hget => ?_) (fun g hget => ?_)
    hat.wired.stdoutCopy.ne_zero
  · cases hat.wired.stdinCopy.refers.symm.trans (hclosed _ _ hget)
    exact c.before.input_old
  · cases hat.wired.stdoutCopy.refers.symm.trans (hclosed _ _ hget)
    exact c.before.output_old

/-! A write end that stays open. -/

theorem Opened.prepared_away (hin : Opened b.first false f.fds l.fdIn)
    (hout : Opened b.first true f.fds l.fdOut) (haway : f.fds.Away fd g)
    (hg : ∃ write, g.origin = .pipeEnd write) (cmd : Command) :
    (l.prepared f cmd).2.fds.Away fd g := by
  have hclosed := (haway.close (hin.ne_pipeEnd hg)).close ((hout.close hin).ne_pipeEnd hg)
  have hredirect : ∀ (f : JobFiles) (i : Nat) (output : Bool) (path : Option CString),
      f.fds.Away fd g → (f.redirect i output path).2.fds.Away fd g := by
    intro f i output path h
    cases path with
    | none => exact h
    | some path => exact h.alloc _
  exact ((hredirect _ l.i true _ (hredirect _ l.i false _ hclosed)).dup2 _ (.inl rfl)).dup2 _
    (.inr rfl)

theorem withPipes_away (l : Locals) (haway : f.fds.Away fd g) (count : Nat) :
    (l.withPipes f count).2.fds.Away fd g := by
  induction count with
  | zero => exact haway
  | succ count ih => exact (ih.alloc _).alloc _

/-- No turn closes the end of a pipe. -/
theorem turnAt_away (c : Caller) (host : Host) (stack : Stack) (hij : i ≤ j) (hj : j ≤ q.length)
    (haway : (turnAt host q (entry stack q c.files) i).2.fds.Away fd g)
    (hg : ∃ write, g.origin = .pipeEnd write) :
    (turnAt host q (entry stack q c.files) j).2.fds.Away fd g := by
  induction j, hij using Nat.le_induction with
  | base => exact haway
  | succ j hij ih =>
    have hcmd : q[j]? = some q[j] := List.getElem?_eq_getElem (by omega)
    have hat := c.turnAt_atTurn (q := q) host stack (Nat.le_of_succ_le hj)
    have hprepared := Opened.prepared_away hat.fdIn hat.fdOut (ih (by omega)) hg q[j]
    rw [turnAt_succ hcmd, turn]
    split
    · rw [Locals.ready, Locals.started]
      split
      · exact hprepared
      · exact withPipes_away _ hprepared _
    · exact (hprepared.dup2 _ (.inl rfl)).dup2 _ (.inr rfl)

/-- All pipes of the last pipeline are older than the next file. -/
theorem wiringAt_room (b : Before) (q : Queue) (k : Nat)
    (hbase : (wiringAt b q k).pipes = some base) :
    base + (q.length - 1) ≤ (wiringAt b q k).nextFile := by
  induction k generalizing base with
  | zero => cases hbase
  | succ k ih =>
    cases hcmd : q[k]? with
    | none =>
      rw [wiringAt, hcmd] at hbase ⊢
      exact ih hbase
    | some cmd =>
      have hready : ∀ base, ((wiringAt b q k).ready q.length k (afterPipeAt q k) cmd).pipes =
          some base → base + (q.length - 1) ≤
            ((wiringAt b q k).ready q.length k (afterPipeAt q k) cmd).nextFile := by
        intro base hbase
        rw [Wiring.ready] at hbase ⊢
        split at hbase
        · next hstart =>
          rw [if_pos hstart]
          cases hbase
          exact le_rfl
        · next hstart =>
          rw [if_neg hstart]
          rw [redirect_pipes] at hbase
          exact (ih hbase).trans (redirect_nextFile _ _ _)
      rw [wiringAt_succ hcmd, Wiring.step] at hbase ⊢
      split at hbase
      · next hpiped =>
        rw [if_pos hpiped]
        exact hready base hbase
      · next hpiped =>
        rw [if_neg hpiped]
        exact hready base hbase

/-- The pipes of a later pipeline are all newer. -/
theorem pipeId_lt_pipeBase (hcmd : q[i]? = some cmd) (hmask : cmd.connectionMask = .pipe)
    (hnext : i + 1 < q.length) (hij : i < j) (hstart : StartsPipeline q j) :
    pipeId b q i < pipeBase b q j := by
  obtain ⟨hafter, cmd', hcmd', hmask'⟩ := hstart
  have hpiped : pipedAt q i = true := pipedAt_of_pipe hcmd hmask
  have hpiped' : pipedAt q j = true := pipedAt_of_pipe hcmd' hmask'
  have hbase := ready_eq_some (b := b) hcmd hpiped
  rw [← wiringAt_piped hcmd hpiped] at hbase
  obtain ⟨base', hbase', hle⟩ := wiringAt_pipes_mono (j := j) (by omega) hbase
  have hroom := wiringAt_room b q j hbase'
  have hlater := ready_eq_some (b := b) hcmd' hpiped'
  rw [Wiring.ready, if_pos ⟨hmask', hafter⟩] at hlater
  have hfirst : ((wiringAt b q j).redirect j cmd').nextFile = pipeBase b q j :=
    Option.some.inj hlater
  have hnextFile := redirect_nextFile (wiringAt b q j) j cmd'
  rw [pipeId]
  omega

/-- The write end of the pipe after a command, once the command has its child. -/
theorem Caller.turnAt_writeEnd (c : Caller) (host : Host) (stack : Stack) (hcmd : q[i]? = some cmd)
    (hmask : cmd.connectionMask = .pipe) (hnext : i + 1 < q.length) :
    ∃ fd, (turnAt host q (entry stack q c.files) (i + 1)).2.fds.Away fd
      (writeEnd (pipeId c.before q i)) := by
  have hpiped : pipedAt q i = true := pipedAt_of_pipe hcmd hmask
  have hbase := ready_eq_some (b := c.before) hcmd hpiped
  rw [← wiringAt_piped hcmd hpiped] at hbase
  have hat := c.turnAt_atTurn (q := q) host stack hnext.le
  exact ⟨_, ((hat.wired.pipes _ hbase).2 i (by rw [hat.count]; omega)).2⟩

/-- The shell holds on to a pipeline's write ends when it starts another one. -/
theorem Caller.finished_writeEnd (c : Caller) (host : Host) (stack : Stack)
    (hcmd : q[i]? = some cmd) (hmask : cmd.connectionMask = .pipe) (hnext : i + 1 < q.length)
    (hij : i < j) (hstart : StartsPipeline q j) :
    ∃ fd, ((turnAt host q (entry stack q c.files) q.length).1.finished
      (turnAt host q (entry stack q c.files) q.length).2).fds.get fd =
        some (writeEnd (pipeId c.before q i)) := by
  obtain ⟨fd, haway⟩ := c.turnAt_writeEnd host stack hcmd hmask hnext
  have hkept := turnAt_away c host stack hnext.le le_rfl haway ⟨true, rfl⟩
  have hlt := pipeId_lt_pipeBase (b := c.before) hcmd hmask hnext hij hstart
  obtain ⟨_, cmd', hcmd', hmask'⟩ := hstart
  have hpiped : pipedAt q j = true := pipedAt_of_pipe hcmd' hmask'
  have hbase := ready_eq_some (b := c.before) hcmd' hpiped
  rw [← wiringAt_piped hcmd' hpiped] at hbase
  obtain ⟨base, hbase', hle⟩ := wiringAt_pipes_mono (j := q.length) (lt_of_turn hcmd') hbase
  have hat := c.turnAt_atTurn (q := q) host stack le_rfl
  generalize turnAt host q (entry stack q c.files) q.length = t at hkept hat
  refine ⟨fd, ?_⟩
  have hclosed : (t.2.closeAll t.1.pipes (2 * (t.1.nCommands - 1))).fds.Away fd
      (writeEnd (pipeId c.before q i)) := by
    refine ⟨?_, hkept.ne_zero, hkept.ne_one⟩
    rw [get_closeAll_of_ne, hkept.refers]
    intro m hm he
    obtain ⟨g, hnew, hend⟩ := hat.wired.pipes_away hbase' hm
    rw [he] at hend
    cases hkept.refers.symm.trans hend.refers
    change base ≤ pipeId c.before q i at hnew
    omega
  exact ((hclosed.dup2 _ (.inl rfl)).dup2 _ (.inr rfl)).refers

end Redshell
