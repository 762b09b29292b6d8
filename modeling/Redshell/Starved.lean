import Redshell.Background
import Redshell.WriteEnds

/-! Waits for stages of a pipeline whose input the shell keeps open. -/
namespace Redshell

/-- Whenever the shell blocks for a stage of a pipeline, it holds no write end of the pipe of this
call that the stage reads from. -/
def NeverStarves (host : Host) (stack : Stack) (q : Queue) (c : Caller) : Prop :=
  AtWaits (fun i fds => pipedAt q i = true → ∀ start ∈ c.starts host stack q, start.index = i →
      ∀ id, c.files.nextFile ≤ id → start.fds.get 0 = some (readEnd id) →
        ∀ fd, fds.get fd ≠ some (writeEnd id)) []
    (deeds (run host.system (executeCommandsInQueue stack q) c.world).1)

/-- No pipeline ends in the foreground before the last command. -/
def NoneWaitedFor (q : Queue) : Prop :=
  ∀ i cmd, q[i]? = some cmd → afterPipeAt q i = true → i + 1 < q.length →
    cmd.connectionMask = .pipe ∨ cmd.connectionMask = .background

/-- There are no two pipelines. -/
def OnePipeline (q : Queue) : Prop :=
  ∀ i j, StartsPipeline q i → StartsPipeline q j → i = j

variable {host : Host} {q : Queue} {i j : Nat} {cmd : Command}

/-- Before the next command the shell has closed nothing. -/
theorem starves_of_next (hhost : host.Succeeds) (stack : Stack) (c : Caller)
    (h : NeverStarves host stack q c) : NoneWaitedFor q := by
  intro i cmd hcmd hafter hnext
  by_contra hmask
  obtain ⟨hpipe, hback⟩ := not_or.mp hmask
  cases i with
  | zero => cases hafter
  | succ i =>
    have hlast : q[i]? = some q[i] := List.getElem?_eq_getElem (by omega)
    have hmask : q[i].connectionMask = .pipe := by
      rw [afterPipeAt_succ hlast] at hafter
      simpa using hafter
    have hpiped : pipedAt q (i + 1) = true := pipedAt_of_after hafter
    have hstart := c.childStart_mem stack hhost hcmd (.inl hpiped)
    have hindex : (childStart cmd (turnAt host q (entry stack q c.files) (i + 1))).index = i + 1 :=
      childStart_index stack c.files hcmd
    have hinput := c.start_input hhost hstart hindex hlast hmask hcmd
    obtain ⟨fd, haway⟩ := c.turnAt_writeEnd host stack hlast hmask (by omega)
    have hkept := turnAt_away c host stack (Nat.le_succ (i + 1)) hnext.le haway ⟨true, rfl⟩
    have hfirst : c.files.nextFile ≤ pipeId c.before q i := by
      have hpiped' : pipedAt q i = true := pipedAt_of_pipe hlast hmask
      exact Nat.le_add_right_of_le (first_le_pipeBase (b := c.before) hlast hpiped')
    exact h.of_next hhost hcmd hnext hpipe hback hpiped _ hstart hindex _ hfirst hinput fd
      hkept.refers

/-- After the loop the shell closes the pipes of the last pipeline only. -/
theorem starves_of_two (stack : Stack) (c : Caller) (hended : Ended q) (hshell : ¬ EndsInShell q)
    (h : NeverStarves willing stack q c) : OnePipeline q := by
  have hlater : ∀ i j, StartsPipeline q i → StartsPipeline q j → ¬ i < j := by
    rintro i j ⟨hafter, cmd, hcmd, hmask⟩ hstart hij
    have hnext := hended i cmd hcmd hmask
    have hcmd' : q[i + 1]? = some q[i + 1] := List.getElem?_eq_getElem hnext
    have hafter' : afterPipeAt q (i + 1) = true := afterPipeAt_of_pipe hcmd hmask
    have hpiped : pipedAt q (i + 1) = true := pipedAt_of_after hafter'
    have hmem := c.childStart_mem stack willing_succeeds hcmd' (.inl hpiped)
    have hindex : (childStart q[i + 1] (turnAt willing q (entry stack q c.files)
        (i + 1))).index = i + 1 := childStart_index stack c.files hcmd'
    have hinput := c.start_input willing_succeeds hmem hindex hcmd hmask hcmd'
    obtain ⟨fd, hfd⟩ := c.finished_writeEnd willing stack hcmd hmask hnext hij hstart
    have hfirst : c.files.nextFile ≤ pipeId c.before q i := by
      have hpiped' : pipedAt q i = true := pipedAt_of_pipe hcmd hmask
      exact Nat.le_add_right_of_le (first_le_pipeBase (b := c.before) hcmd hpiped')
    -- The run gets to its final waits, and one is for the command after the pipe.
    have hq : q ≠ [] := List.ne_nil_of_length_pos (by omega)
    obtain ⟨w', hrun, hmoved⟩ := execute_finished stack hq (w := c.world) rfl
      (continues_of_succeeds willing_succeeds hshell)
    have hempty : deeds c.world = [] := rfl
    rw [NeverStarves, hrun, hmoved.deeds, hempty, List.nil_append] at h
    obtain ⟨_, hlaunched⟩ := (atWaits_finalDeeds_iff _ _).mp h.right
    have hcounted := entry_counted willing stack c.files (le_refl q.length)
    refine hlaunched (i + 1) (hcounted.count.symm ▸ hnext) (i + 1) ?_ hpiped _ hmem hindex _ hfirst
      hinput fd hfd
    have hpid : (turnAt willing q (entry stack q c.files) q.length).1.launched (i + 1 : Nat) =
        ((i + 1 : Nat) : Int) + 1 := by
      rw [hcounted.launched, if_pos ⟨by omega, by omega, by simpa using hpiped⟩]
      rfl
    rw [List.nil_append]
    change processOf ((turnAt willing q (entry stack q c.files) q.length).1.launched
      (i + 1 : Nat)) _ = _
    rw [hpid]
    exact processOf_willing stack c.files hnext le_rfl
  intro i j hi hj
  have := hlater i j hi hj
  have := hlater j i hj hi
  omega

theorem neverStarves_of (host : Host) (stack : Stack) (c : Caller) (hnext : NoneWaitedFor q)
    (hone : OnePipeline q ∨ EndsInShell q) : NeverStarves host stack q c := by
  have hturns : ∀ i cmd, q[i]? = some cmd → i + 1 < q.length → cmd.connectionMask ≠ .pipe →
      cmd.connectionMask ≠ .background → pipedAt q i ≠ true := by
    intro i cmd hcmd hlt hpipe hback hpiped
    have hafter : afterPipeAt q i = true := by
      rw [pipedAt_eq hcmd] at hpiped
      simpa [hpipe] using hpiped
    rcases hnext i cmd hcmd hafter hlt with hmask | hmask
    · exact hpipe hmask
    · exact hback hmask
  by_cases hcont : Continues host q q.length
  · by_cases hq : q = []
    · subst hq
      exact .nil _ []
    have hends := c.finished_writeEnds host stack
      (hone.resolve_right fun hshell => hshell.not_continues hcont)
    obtain ⟨w', hrun, hmoved⟩ := execute_finished stack hq (w := c.world) rfl hcont
    have hempty : deeds c.world = [] := rfl
    rw [NeverStarves, hrun, hmoved.deeds, hempty, List.nil_append]
    have hfinal : ∀ id, c.files.nextFile ≤ id → ∀ fd, ((turnAt host q (entry stack q
        c.files) q.length).1.finished (turnAt host q (entry stack q c.files) q.length).2).fds.get
        fd ≠ some (writeEnd id) := fun id hid fd hfd => hends fd id hid hfd
    refine AtWaits.append ?_ ((atWaits_finalDeeds_iff _ _).mpr ⟨?_, fun k hk i _ hpiped start _ _
      id hid _ => hfinal id hid⟩)
    · exact atWaits_turns host stack c.files le_rfl fun i cmd hlt hcmd hpipe hback hpiped =>
        absurd hpiped (hturns i cmd hcmd hlt hpipe hback)
    · exact atWaits_waited host stack c.files _ le_rfl fun i cmd _ _ _ _ _ start _ _ id hid _ =>
        hfinal id hid
  · exact execute_atWaits host stack c.files c.memory hcont fun i cmd hcmd hlt hpipe hback hpiped =>
      absurd hpiped (hturns i cmd hcmd hlt hpipe hback)

/-- The shell never blocks for a stage it starves exactly when no pipeline ends in the foreground
before the last command and, if the loop gets to its end, there is at most one pipeline. -/
theorem execute_never_starves_iff (wordexp : Wordexp) (st : Aliases) (created : Nat)
    (line : CString) (hline : ∀ c ∈ line, c ≠ 0) (hmain : line ∈ mainRule) (r : Parse)
    (hparse : parseInput wordexp ⟨st, [], created⟩ line = .ok r)
    (hok : ∀ call ∈ r.session.calls, call.glob = true → call.result ≠ none)
    (stack : Stack) (c : Caller) :
    (∀ host : Host, host.Succeeds → NeverStarves host stack r.queue c) ↔
      NoneWaitedFor r.queue ∧ (OnePipeline r.queue ∨ EndsInShell r.queue) := by
  have hended := parseInput_ended hline hmain hparse hok
  constructor
  · intro h
    refine ⟨starves_of_next willing_succeeds stack c (h willing willing_succeeds), ?_⟩
    by_cases hshell : EndsInShell r.queue
    · exact .inr hshell
    · exact .inl (starves_of_two stack c hended hshell (h willing willing_succeeds))
  · rintro ⟨hnext, hone⟩ host _
    exact neverStarves_of host stack c hnext hone

/-- A pipeline at the end of a list. -/
theorem execute_never_starves_iff_ls :
    ∃ r, parseInput (fun _ text => some [text]) ⟨Dictionary.empty.toAliases, [], 0⟩
        (bytes "pwd; ls | wc") = .ok r ∧
      ((∀ host : Host, host.Succeeds → NeverStarves host zeroStack r.queue terminal) ↔
        NoneWaitedFor r.queue ∧ (OnePipeline r.queue ∨ EndsInShell r.queue)) := by
  obtain ⟨r, hparse, hok⟩ := exists_parse (fun _ text => some [text])
    ⟨Dictionary.empty.toAliases, [], 0⟩ (bytes "pwd; ls | wc") (by decide +kernel)
  exact ⟨r, hparse, execute_never_starves_iff _ _ _ _ (by decide +kernel) (by decide +kernel) r
    hparse hok zeroStack terminal⟩

/-- In `ls | wc; pwd` the shell waits for `wc` while it holds the pipe that `wc` reads. -/
theorem execute_starves :
    ¬ ∀ (wordexp : Wordexp) (st : Aliases) (created : Nat) (line : CString),
      (∀ c ∈ line, c ≠ 0) → line ∈ mainRule →
      ∀ r, parseInput wordexp ⟨st, [], created⟩ line = .ok r →
      (∀ call ∈ r.session.calls, call.glob = true → call.result ≠ none) →
      ∀ host : Host, host.Succeeds → ∀ stack c, NeverStarves host stack r.queue c := by
  intro hall
  obtain ⟨r, hparse, hok⟩ := exists_parse (fun _ text => some [text])
    ⟨Dictionary.empty.toAliases, [], 0⟩ (bytes "ls | wc; pwd") (by decide +kernel)
  have hnever := hall _ _ _ _ (by decide +kernel) (by decide +kernel) r hparse hok willing
    willing_succeeds zeroStack terminal
  -- The sixth deed is the wait for `wc`, and descriptor 6 is the write end.
  have hblocks : (parseInput (fun _ text => some [text]) ⟨Dictionary.empty.toAliases, [], 0⟩
      (bytes "ls | wc; pwd")).map (fun r =>
        ((deeds (run willing.system (executeCommandsInQueue zeroStack r.queue)
            terminal.world).1)[5]?.map (fun d => (d.deed, d.fds.get 6)),
          processOf 2 ((deeds (run willing.system (executeCommandsInQueue zeroStack r.queue)
            terminal.world).1).take 5))) =
      .ok (some (.waitpid 2, some (writeEnd 3)), some 1) := by decide +kernel
  have hreads : (parseInput (fun _ text => some [text]) ⟨Dictionary.empty.toAliases, [], 0⟩
      (bytes "ls | wc; pwd")).map (fun r => (pipedAt r.queue 1,
        (terminal.starts willing zeroStack r.queue)[1]?.map
          (fun start => (start.index, start.fds.get 0)))) =
      .ok (true, some (1, some (readEnd 3))) := by decide +kernel
  rw [hparse] at hblocks hreads
  have hblocked := Except.ok.inj hblocks
  have hread := Except.ok.inj hreads
  simp only [Prod.mk.injEq, Option.map_eq_some_iff] at hblocked hread
  obtain ⟨⟨d, hd, hdeed, hfds⟩, hprocess⟩ := hblocked
  obtain ⟨hpiped, start, hstart, hindex, hinput⟩ := hread
  have hwaits : d.deed.waits = some 2 := by rw [hdeed]; rfl
  exact hnever 5 d 2 1 hd hwaits hprocess hpiped start (List.mem_of_getElem? hstart) hindex 3
    (by decide) hinput 6 hfds

end Redshell
