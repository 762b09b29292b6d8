import Redshell.Accepted
import Redshell.Waits

/-! Waits for commands in the background. -/
namespace Redshell

/-- The command at `i` runs in the background, on its own or as a stage of a pipeline. -/
def InBackground (q : Queue) (i : Nat) : Prop :=
  ∃ j last, i ≤ j ∧
    (∀ k cmd, i ≤ k → k < j → q[k]? = some cmd → cmd.connectionMask = .pipe) ∧
    q[j]? = some last ∧ last.connectionMask = .background

/-- The shell never blocks for a process of the background. -/
def NeverBlocks (host : Host) (stack : Stack) (q : Queue) (files : JobFiles) (memory : Memory) :
    Prop :=
  AtWaits (fun i _ => ¬ InBackground q i) []
    (deeds (run host.system (executeCommandsInQueue stack q) (shellWorld files memory)).1)

variable {q : Queue} {i j k : Nat} {cmd : Command} {f : JobFiles}

theorem not_inBackground (hcmd : q[i]? = some cmd) (hpipe : cmd.connectionMask ≠ .pipe)
    (hback : cmd.connectionMask ≠ .background) : ¬ InBackground q i := by
  rintro ⟨j, last, hij, hstages, hlast, hmask⟩
  rcases Nat.eq_or_lt_of_le hij with rfl | hlt
  · cases hcmd.symm.trans hlast
    exact hback hmask
  · exact hpipe (hstages i cmd le_rfl hlt hcmd)

/-- Arrays that hold at each index the pid `willing` gives to that command. -/
def pidStack : Stack := ⟨fun _ => 0, fun j => j + 1⟩

theorem processOf_willing (stack : Stack) (f : JobFiles) (hj : j < k) (hk : k ≤ q.length) :
    processOf (j + 1) ((List.range k).flatMap (deedsAt willing q (entry stack q f))) = some j := by
  induction k with
  | zero => exact absurd hj (Nat.not_lt_zero j)
  | succ k ih =>
    have hpid : willing.pid k = k + 1 := rfl
    rw [processOf_turns_succ willing stack f _ (by omega), hpid]
    rcases Nat.lt_succ_iff_lt_or_eq.mp hj with hlt | rfl
    · rw [if_neg (by omega), ih hlt (by omega)]
      rfl
    · rw [if_pos rfl]
      rfl

theorem launched_willing (q : Queue) (f : JobFiles) (j : Nat) :
    (turnAt willing q (entry pidStack q f) q.length).1.launched j = j + 1 := by
  rw [(entry_counted willing pidStack f (le_refl q.length)).launched j]
  split
  · rfl
  · rfl

/-- The final waits block for every command when `launched` holds their pids. -/
theorem blocks_willing (hq : ¬ EndsInShell q) (hj : j < q.length) (hback : InBackground q j)
    (files : JobFiles) (memory : Memory) : ¬ NeverBlocks willing pidStack q files memory := by
  intro hnever
  have hne : q ≠ [] := List.ne_nil_of_length_pos (by omega)
  obtain ⟨w', hrun, hmoved⟩ := execute_finished pidStack hne (w := shellWorld files memory) rfl
    (continues_of_succeeds willing_succeeds hq)
  have hempty : deeds (shellWorld files memory) = [] := rfl
  have hwaits : AtWaits (fun i _ => ¬ InBackground q i) [] (deeds w') := by
    rw [NeverBlocks, hrun] at hnever
    exact hnever
  rw [hmoved.deeds, hempty, List.nil_append] at hwaits
  obtain ⟨_, hlaunched⟩ := (atWaits_finalDeeds_iff _ _).mp hwaits.right
  have hcounted := entry_counted willing pidStack files (le_refl q.length)
  refine hlaunched j (hcounted.count.symm ▸ hj) j ?_ hback
  rw [List.nil_append]
  change processOf ((turnAt willing q (entry pidStack q files) q.length).1.launched j) _ = _
  rw [launched_willing q files j]
  exact processOf_willing pidStack files hj le_rfl

/-- A queue never has the shell wait for the background exactly when nothing in it is in the
background or its last command ends in the shell. -/
theorem execute_never_blocks_iff (q : Queue) :
    (∀ host stack files memory, NeverBlocks host stack q files memory) ↔
      (∀ cmd ∈ q, cmd.connectionMask ≠ .background) ∨ EndsInShell q := by
  constructor
  · intro hnever
    by_contra hnot
    obtain ⟨hback, hshell⟩ := not_or.mp hnot
    have hmem : ∃ cmd ∈ q, cmd.connectionMask = .background := by
      simpa only [not_forall, exists_prop, not_not] using hback
    obtain ⟨cmd, hmem, hmask⟩ := hmem
    obtain ⟨j, hcmd⟩ := List.getElem?_of_mem hmem
    refine blocks_willing hshell (lt_of_turn hcmd) ⟨j, cmd, le_rfl, ?_, hcmd, hmask⟩
      terminal.files terminal.memory (hnever _ _ _ _)
    intro k cmd' hjk hkj
    omega
  · rintro (hnone | hshell) host stack files memory
    · intro k d pid i _ _ _
      rintro ⟨j, last, _, _, hlast, hmask⟩
      exact hnone last (List.mem_of_getElem? hlast) hmask
    · exact execute_atWaits host stack files memory hshell.not_continues
        fun i cmd hcmd _ hpipe hback => not_inBackground hcmd hpipe hback

/-- In `ls | wc &` the shell waits for both stages. -/
theorem execute_blocks_for_background :
    ¬ ∀ (wordexp : Wordexp) (st : Aliases) (created : Nat) (line : CString),
      (∀ c ∈ line, c ≠ 0) → line ∈ mainRule →
      ∀ r, parseInput wordexp ⟨st, [], created⟩ line = .ok r →
      (∀ call ∈ r.session.calls, call.glob = true → call.result ≠ none) →
      ∀ host stack files memory, NeverBlocks host stack r.queue files memory := by
  intro hall
  obtain ⟨r, hparse, hok⟩ := exists_parse (fun _ text => some [text])
    ⟨Dictionary.empty.toAliases, [], 0⟩ (bytes "ls | wc &") (by decide +kernel)
  have hnever := hall _ _ _ _ (by decide +kernel) (by decide +kernel) r hparse hok willing zeroStack
    terminal.files terminal.memory
  have hrun : (parseInput (fun _ text => some [text]) ⟨Dictionary.empty.toAliases, [], 0⟩
      (bytes "ls | wc &")).map (fun r =>
        (r.queue.map (·.connectionMask), (deeds (run willing.system
          (executeCommandsInQueue zeroStack r.queue)
          (shellWorld terminal.files terminal.memory)).1)[6]?.map (·.deed),
        processOf 1 ((deeds (run willing.system (executeCommandsInQueue zeroStack r.queue)
          (shellWorld terminal.files terminal.memory)).1).take 6))) =
      .ok ([.pipe, .background], some (.reap 1), some 0) := by decide +kernel
  rw [hparse] at hrun
  have hvalues := Except.ok.inj hrun
  simp only [Prod.mk.injEq] at hvalues
  obtain ⟨hmasks, hdeed, hprocess⟩ := hvalues
  obtain ⟨d, hd, hdeed⟩ := Option.map_eq_some_iff.mp hdeed
  have hwaits : d.deed.waits = some 1 := by rw [hdeed]; rfl
  refine hnever 6 d 1 0 hd hwaits hprocess ?_
  obtain ⟨first, last, hqueue⟩ : ∃ first last, r.queue = [first, last] := by
    have hlen := congrArg List.length hmasks
    rw [List.length_map] at hlen
    exact List.length_eq_two.mp hlen
  rw [hqueue] at hmasks ⊢
  obtain ⟨hfirst, hlast⟩ := by simpa using hmasks
  refine ⟨1, last, Nat.zero_le 1, fun k cmd _ hk hcmd => ?_, rfl, hlast⟩
  obtain rfl : k = 0 := by omega
  cases hcmd
  exact hfirst

end Redshell
