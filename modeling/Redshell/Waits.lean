import Redshell.Sequences

/-! The processes that the shell waits for. -/
namespace Redshell

/-- The process that a deed blocks for. -/
def Deed.waits : Deed → Option Int
  | waitpid pid => some pid
  | reap pid => some pid
  | _ => none

/-- The command whose child a deed makes, when `fork` returns this pid. -/
def Deed.makes (pid : Int) : Deed → Option Nat
  | fork i made => if made = pid then some i else none
  | _ => none

/-- The command whose child has a pid after some deeds: the last one that `fork` returned it for. -/
def processOf (pid : Int) : List Done → Option Nat
  | [] => none
  | d :: done => (processOf pid done).or (d.deed.makes pid)

/-- After the deeds in `front`, whenever the shell blocks for the child of a command, this holds of
the command and of the descriptors that the shell has then. -/
def AtWaits (P : Nat → Table (OpenFile Redirection) → Prop) (front done : List Done) : Prop :=
  ∀ (k : Nat) (d : Done) (pid : Int) (i : Nat), done[k]? = some d → d.deed.waits = some pid →
    processOf pid (front ++ done.take k) = some i → P i d.fds

/-- The last command ends in the shell: it executes there, or it crashes it for want of a name. -/
def EndsInShell (q : Queue) : Prop :=
  ∃ last, q.getLast? = some last ∧ last.connectionMask ≠ .background ∧
    pipedAt q (q.length - 1) = false ∧ isBuiltin last.path ≠ some false

variable {host : Host} {stack : Stack} {q : Queue} {w w' : JobWorld} {f : JobFiles} {i k : Nat}
  {cmd : Command} {pid : Int} {done done' front : List Done} {d : Done} {l : Locals}
  {P Q : Nat → Table (OpenFile Redirection) → Prop}

theorem processOf_append (pid : Int) (done done' : List Done) :
    processOf pid (done ++ done') = (processOf pid done').or (processOf pid done) := by
  induction done with
  | nil => rw [List.nil_append, processOf, Option.or_none]
  | cons d done ih => rw [List.cons_append, processOf, processOf, ih, Option.or_assoc]

theorem processOf_eq_none (h : ∀ d ∈ done, d.deed.makes pid = none) :
    processOf pid done = none := by
  induction done with
  | nil => rfl
  | cons d done ih =>
    obtain ⟨hd, hdone⟩ := List.forall_mem_cons.mp h
    rw [processOf, ih hdone, hd]
    rfl

namespace AtWaits

theorem nil (P : Nat → Table (OpenFile Redirection) → Prop) (front : List Done) :
    AtWaits P front [] := by
  intro k d pid i hd
  cases hd

theorem of_silent (h : ∀ d ∈ done, d.deed.waits = none) : AtWaits P front done := by
  intro k d pid i hd hwaits
  cases (h d (List.mem_of_getElem? hd)).symm.trans hwaits

theorem append (h : AtWaits P front done) (h' : AtWaits P (front ++ done) done') :
    AtWaits P front (done ++ done') := by
  intro k d pid i hd hwaits hprocess
  by_cases hk : k < done.length
  · rw [List.getElem?_append_left hk] at hd
    rw [List.take_append_of_le_length hk.le] at hprocess
    exact h k d pid i hd hwaits hprocess
  · rw [List.getElem?_append_right (by omega)] at hd
    rw [List.take_append, List.take_of_length_le (by omega), ← List.append_assoc] at hprocess
    exact h' (k - done.length) d pid i hd hwaits hprocess

theorem left (h : AtWaits P front (done ++ done')) : AtWaits P front done := by
  intro k d pid i hd hwaits hprocess
  have hk := (List.getElem?_eq_some_iff.mp hd).1
  refine h k d pid i ?_ hwaits ?_
  · rwa [List.getElem?_append_left hk]
  · rwa [List.take_append_of_le_length hk.le]

theorem right (h : AtWaits P front (done ++ done')) : AtWaits P (front ++ done) done' := by
  intro k d pid i hd hwaits hprocess
  refine h (done.length + k) d pid i ?_ hwaits ?_
  · rw [List.getElem?_append_right (by omega)]
    rwa [Nat.add_sub_cancel_left]
  · rwa [List.take_length_add_append, ← List.append_assoc]

/-- A single deed. -/
theorem singleton_iff : AtWaits P front [d] ↔
    ∀ pid i, d.deed.waits = some pid → processOf pid front = some i → P i d.fds := by
  constructor
  · intro h pid i hwaits hprocess
    exact h 0 d pid i rfl hwaits (by simpa using hprocess)
  · intro h k d' pid i hd hwaits hprocess
    cases k with
    | zero =>
      cases hd
      exact h pid i hwaits (by simpa using hprocess)
    | succ k => cases hd

end AtWaits

/-! The deeds of a turn. -/

theorem makes_waited (pid : Int) (l : Locals) (f : JobFiles) :
    ∀ d ∈ l.waited f, d.deed.makes pid = none := by
  unfold Locals.waited
  split
  · simp
  · split <;> simp [Deed.makes]

theorem makes_freed (pid : Int) (l : Locals) (f : JobFiles) :
    ∀ d ∈ l.freed f, d.deed.makes pid = none := by
  unfold Locals.freed
  split <;> simp [Deed.makes]

theorem waits_freed (l : Locals) (f : JobFiles) : ∀ d ∈ l.freed f, d.deed.waits = none := by
  unfold Locals.freed
  split <;> simp [Deed.waits]

/-- A turn blocks first, if at all, and then makes its child. -/
theorem turnDeeds_split (host : Host) (cmd : Command) (t : Locals × JobFiles) :
    ∃ d rest, turnDeeds host cmd t = t.1.waited t.2 ++ d :: rest ∧
      d.deed = .fork t.1.i (host.pid t.1.i) ∧
      (∀ d ∈ rest, d.deed.waits = none) ∧ ∀ pid, ∀ d ∈ rest, d.deed.makes pid = none := by
  rw [turnDeeds]
  split
  · refine ⟨_, _, rfl, rfl, ?_, fun pid => ?_⟩
    · exact List.forall_mem_cons.mpr ⟨rfl, waits_freed t.1 _⟩
    · exact List.forall_mem_cons.mpr ⟨rfl, makes_freed pid t.1 _⟩
  · exact ⟨_, _, rfl, rfl, waits_freed t.1 _, fun pid => makes_freed pid t.1 _⟩

theorem processOf_turnDeeds (host : Host) (pid : Int) (cmd : Command) (t : Locals × JobFiles) :
    processOf pid (turnDeeds host cmd t) =
      if host.pid t.1.i = pid then some t.1.i else none := by
  obtain ⟨d, rest, hsplit, hdeed, _, hmakes⟩ := turnDeeds_split host cmd t
  rw [hsplit, processOf_append, processOf_eq_none (makes_waited pid t.1 t.2), Option.or_none,
    processOf, processOf_eq_none (hmakes pid), hdeed]
  rfl

theorem processOf_turns_succ (host : Host) (stack : Stack) (f : JobFiles) (pid : Int)
    (hk : k < q.length) :
    processOf pid ((List.range (k + 1)).flatMap (deedsAt host q (entry stack q f))) =
      (if host.pid k = pid then some k else none).or
        (processOf pid ((List.range k).flatMap (deedsAt host q (entry stack q f)))) := by
  have hcmd : q[k]? = some q[k] := List.getElem?_eq_getElem hk
  rw [List.range_succ, List.flatMap_append, List.flatMap_singleton, processOf_append,
    deedsAt_eq hcmd, processOf_turnDeeds, (entry_counted host stack f hk.le).index]

/-- The last child made is the process of its pid. -/
theorem processOf_last (host : Host) (stack : Stack) (f : JobFiles) (hk : k < q.length) :
    processOf (host.pid k) ((List.range (k + 1)).flatMap (deedsAt host q (entry stack q f))) =
      some k := by
  rw [processOf_turns_succ host stack f _ hk, if_pos rfl]
  rfl

theorem waited_eq (hcmd : l.lastCommand = some cmd) (hpid : l.pid ≠ -1)
    (hpipe : cmd.connectionMask ≠ .pipe) (hback : cmd.connectionMask ≠ .background)
    (f : JobFiles) : l.waited f = [⟨f.fds, .waitpid l.pid⟩] := by
  rw [Locals.waited, hcmd]
  exact if_pos ⟨hpid, hpipe, hback⟩

/-- The wait for the last command is for the child made in the last turn. -/
theorem atWaits_waited (host : Host) (stack : Stack) (f g : JobFiles) (hk : k ≤ q.length)
    (h : ∀ i cmd, k = i + 1 → q[i]? = some cmd → cmd.connectionMask ≠ .pipe →
      cmd.connectionMask ≠ .background → P i g.fds) :
    AtWaits P ((List.range k).flatMap (deedsAt host q (entry stack q f)))
      ((turnAt host q (entry stack q f) k).1.waited g) := by
  have hcounted := entry_counted host stack f hk
  cases k with
  | zero =>
    have hlast := hcounted.last
    rw [if_pos rfl] at hlast
    rw [Locals.waited, hlast]
    exact .nil P _
  | succ k =>
    have hcmd : q[k]? = some q[k] := List.getElem?_eq_getElem (by omega)
    have hlast := hcounted.last
    rw [if_neg (Nat.succ_ne_zero k), Nat.add_sub_cancel, hcmd] at hlast
    rw [Locals.waited, hlast]
    dsimp only
    split
    · next hmask =>
      refine AtWaits.singleton_iff.mpr fun pid i hwaits hprocess => ?_
      cases hwaits
      have hpid := hcounted.pid
      rw [if_neg (Nat.succ_ne_zero k), Nat.add_sub_cancel] at hpid
      rw [hpid, processOf_last host stack f (by omega)] at hprocess
      cases hprocess
      exact h k q[k] rfl hcmd hmask.2.1 hmask.2.2
    · exact .nil P _

/-- What holds at the wait of each turn holds at all waits of the turns. -/
theorem atWaits_turns (host : Host) (stack : Stack) (f : JobFiles) (hk : k ≤ q.length)
    (h : ∀ i cmd, i + 1 < k → q[i]? = some cmd → cmd.connectionMask ≠ .pipe →
      cmd.connectionMask ≠ .background →
      P i (turnAt host q (entry stack q f) (i + 1)).2.fds) :
    AtWaits P [] ((List.range k).flatMap (deedsAt host q (entry stack q f))) := by
  induction k with
  | zero => exact .nil P []
  | succ k ih =>
    have hcmd : q[k]? = some q[k] := List.getElem?_eq_getElem (by omega)
    rw [List.range_succ, List.flatMap_append, List.flatMap_singleton, deedsAt_eq hcmd]
    refine (ih (by omega) fun i cmd hi => h i cmd (by omega)).append ?_
    obtain ⟨d, rest, hsplit, hdeed, hwaits, _⟩ :=
      turnDeeds_split host q[k] (turnAt host q (entry stack q f) k)
    rw [hsplit, List.nil_append]
    refine AtWaits.append ?_ (.of_silent ?_)
    · refine atWaits_waited host stack f _ (by omega) fun i cmd hi => ?_
      subst hi
      exact h i cmd (by omega)
    · exact List.forall_mem_cons.mpr ⟨by rw [hdeed]; rfl, hwaits⟩

/-! The deeds after the loop. -/

theorem processOf_silent (pid : Int) (h : ∀ d ∈ done', d.deed.makes pid = none) :
    processOf pid (done ++ done') = processOf pid done := by
  rw [processOf_append, processOf_eq_none h, Option.none_or]

/-- After the loop the shell may block for the last command and does so for what `launched` has. -/
theorem atWaits_finalDeeds_iff (l : Locals) (f : JobFiles) :
    AtWaits P front (l.finalDeeds f) ↔ AtWaits P front (l.waited (l.finished f)) ∧
      ∀ k < l.nCommands, ∀ i, processOf (l.launched k) front = some i →
        P i (l.finished f).fds := by
  have hreap : ∀ d ∈ (List.range l.nCommands).map (fun i : Nat =>
      (⟨(l.finished f).fds, .reap (l.launched i)⟩ : Done)), ∀ pid, d.deed.makes pid = none := by
    intro d hd pid
    obtain ⟨i, _, rfl⟩ := List.mem_map.mp hd
    rfl
  have hfront : ∀ pid k,
      processOf pid (front ++ l.waited (l.finished f) ++ l.freed (l.finished f) ++
      ((List.range l.nCommands).map fun i : Nat =>
        (⟨(l.finished f).fds, .reap (l.launched i)⟩ : Done)).take k) = processOf pid front := by
    intro pid k
    rw [processOf_silent pid fun d hd => hreap d (List.mem_of_mem_take hd) pid,
      processOf_silent pid (makes_freed pid l _), processOf_silent pid (makes_waited pid l _)]
  constructor
  · intro h
    refine ⟨h.left, fun k hk i hprocess => ?_⟩
    refine h.right.right.left k ⟨(l.finished f).fds, .reap (l.launched k)⟩
      (l.launched k) i ?_ rfl ?_
    · simp [hk]
    · rw [hfront]
      exact hprocess
  · rintro ⟨hwaited, hlaunched⟩
    refine hwaited.append (.append (.of_silent (waits_freed l _)) (.append ?_ (.of_silent ?_)))
    · intro k d pid i hd hwaits hprocess
      have hk := (List.getElem?_eq_some_iff.mp hd).1
      rw [List.length_map, List.length_range] at hk
      rw [List.getElem?_map, List.getElem?_range hk] at hd
      cases hd
      cases hwaits
      rw [hfront] at hprocess
      exact hlaunched k hk i hprocess
    · simp [Deed.waits]

/-! The runs that do not get to the end of the loop. -/

/-- A run that ends before the last waits blocks only for commands of the foreground. -/
theorem execute_atWaits (host : Host) (stack : Stack) (files : JobFiles) (memory : Memory)
    (hq : ¬ Continues host q q.length)
    (h : ∀ i cmd, q[i]? = some cmd → i + 1 < q.length → cmd.connectionMask ≠ .pipe →
      cmd.connectionMask ≠ .background →
      P i (turnAt host q (entry stack q files) (i + 1)).2.fds) :
    AtWaits P [] (deeds (run host.system (executeCommandsInQueue stack q)
      (shellWorld files memory)).1) := by
  have hw : (shellWorld files memory).process = none := rfl
  have hturns : ∀ k, k < q.length → AtWaits P []
      ((List.range k).flatMap (deedsAt host q (entry stack q files)) ++
        (turnAt host q (entry stack q files) k).1.waited
          (turnAt host q (entry stack q files) k).2) := by
    intro k hk
    refine (atWaits_turns host stack files hk.le fun i cmd hi hcmd => ?_).append ?_
    · exact h i cmd hcmd (by omega)
    · rw [List.nil_append]
      refine atWaits_waited host stack files _ hk.le fun i cmd hi hcmd => ?_
      subst hi
      exact h i cmd hcmd hk
  rcases course host q with ⟨k, cmd, hcont, hcmd, hfail⟩ |
    ⟨k, cmd, hcont, hcmd, hok, hsingle, hshell⟩ | ⟨k, cmd, hcont, hcmd, hok, hsingle, hshell⟩ |
    ⟨hcont⟩
  · obtain ⟨w', path, hrun, hmoved⟩ := execute_failed stack hw hcont hcmd hfail
    rw [hrun, hmoved.deeds]
    exact hturns k (lt_of_turn hcmd)
  · obtain ⟨w₁, w', hrun, hmoved, hran⟩ := execute_inShell stack hw hcont hcmd hok hsingle hshell
    rw [hrun, hran.deeds, hmoved.deeds, ← List.append_assoc]
    refine AtWaits.append (hturns k (lt_of_turn hcmd)) (.of_silent ?_)
    cases executeCommand host (shellWorld files memory).memory.shell cmd <;>
      simp [Executed.freed, Deed.waits]
  · obtain ⟨w', hrun, hmoved⟩ := execute_nameless stack hw hcont hcmd hok hsingle hshell
    rw [hrun, hmoved.deeds]
    exact hturns k (lt_of_turn hcmd)
  · exact absurd hcont hq

theorem EndsInShell.not_continues (h : EndsInShell q) : ¬ Continues host q q.length := by
  obtain ⟨last, hlast, hmask, hsingle, hbuiltin⟩ := h
  intro hcont
  rw [List.getLast?_eq_getElem?] at hlast
  have hlt := (List.getElem?_eq_some_iff.mp hlast).1
  have hshell := hcont.forks (q.length - 1) last hlt hlast hsingle
  rw [Nat.sub_add_cancel (by omega), List.drop_length, runsInShell, if_pos ⟨hmask, rfl⟩] at hshell
  exact hbuiltin hshell

/-- With every call succeeding, the loop gets to its end unless the last command ends in the
shell. -/
theorem continues_of_succeeds (hhost : host.Succeeds) (hq : ¬ EndsInShell q) :
    Continues host q q.length := by
  refine ⟨fun i cmd _ _ => ?_, fun i cmd hi hcmd hsingle => ?_⟩
  · simp [Host.failsAt, Host.fails, hhost.opens]
  · by_cases hlast : i + 1 < q.length
    · exact runsInShell_drop hlast cmd
    · have hlen : i + 1 = q.length := by omega
      obtain rfl : i = q.length - 1 := by omega
      rw [hlen, List.drop_length, runsInShell]
      split
      · next hmask =>
        by_contra hbuiltin
        refine hq ⟨cmd, ?_, hmask.1, hsingle, hbuiltin⟩
        rwa [List.getLast?_eq_getElem?]
      · rfl

/-- The deeds of the turns, cut after the wait of one of them. -/
theorem turns_split (host : Host) (t : Locals × JobFiles) (hi : i < k) (hk : k ≤ q.length) :
    ∃ rest, (List.range k).flatMap (deedsAt host q t) =
      (List.range i).flatMap (deedsAt host q t) ++
        (turnAt host q t i).1.waited (turnAt host q t i).2 ++ rest := by
  induction k with
  | zero => exact absurd hi (Nat.not_lt_zero i)
  | succ k ih =>
    have hcmd : q[k]? = some q[k] := List.getElem?_eq_getElem (by omega)
    rw [List.range_succ, List.flatMap_append, List.flatMap_singleton, deedsAt_eq hcmd]
    rcases Nat.lt_succ_iff_lt_or_eq.mp hi with hlt | rfl
    · obtain ⟨rest, hrest⟩ := ih hlt (by omega)
      rw [hrest, List.append_assoc]
      exact ⟨_, rfl⟩
    · obtain ⟨d, rest, hsplit, _⟩ := turnDeeds_split host q[i] (turnAt host q t i)
      rw [hsplit, ← List.append_assoc]
      exact ⟨_, rfl⟩

/-- With every call succeeding, the run has the wait of each turn. -/
theorem execute_split (hhost : host.Succeeds) (stack : Stack) (files : JobFiles) (memory : Memory)
    (hk : k < q.length) :
    ∃ rest, deeds (run host.system (executeCommandsInQueue stack q) (shellWorld files memory)).1 =
      (List.range k).flatMap (deedsAt host q (entry stack q files)) ++
        (turnAt host q (entry stack q files) k).1.waited
          (turnAt host q (entry stack q files) k).2 ++ rest := by
  have hw : (shellWorld files memory).process = none := rfl
  have hempty : deeds (shellWorld files memory) = [] := rfl
  have hturns : ∀ n, k ≤ n → n ≤ q.length → ∀ last, ∃ rest,
      (List.range n).flatMap (deedsAt host q (entry stack q files)) ++
        ((turnAt host q (entry stack q files) n).1.waited
          (turnAt host q (entry stack q files) n).2 ++ last) =
      (List.range k).flatMap (deedsAt host q (entry stack q files)) ++
        (turnAt host q (entry stack q files) k).1.waited
          (turnAt host q (entry stack q files) k).2 ++ rest := by
    intro n hkn hn last
    rcases Nat.eq_or_lt_of_le hkn with rfl | hlt
    · exact ⟨last, by rw [List.append_assoc]⟩
    · obtain ⟨rest, hrest⟩ := turns_split host (entry stack q files) hlt hn
      rw [hrest, List.append_assoc]
      exact ⟨_, rfl⟩
  have hlast : ∀ {n cmd ran}, q[n]? = some cmd →
      runsInShell cmd (q.drop (n + 1)) = ran → ran ≠ some false → k ≤ n := by
    intro n cmd ran hcmd hshell hran
    by_contra hlt
    rw [runsInShell_drop (by omega)] at hshell
    exact hran hshell.symm
  cases course host q with
  | failed n cmd hcont hcmd hfail => simp [hhost.failsAt] at hfail
  | inShell n cmd hcont hcmd hok hsingle hshell =>
    obtain ⟨w₁, w', hrun, hmoved, hran⟩ := execute_inShell stack hw hcont hcmd hok hsingle hshell
    rw [hrun, hran.deeds, hmoved.deeds, hempty, List.nil_append]
    exact hturns n (hlast hcmd hshell (by simp)) (lt_of_turn hcmd).le _
  | nameless n cmd hcont hcmd hok hsingle hshell =>
    obtain ⟨w', hrun, hmoved⟩ := execute_nameless stack hw hcont hcmd hok hsingle hshell
    obtain ⟨rest, hrest⟩ := hturns n (hlast hcmd hshell (by simp)) (lt_of_turn hcmd).le []
    rw [List.append_nil] at hrest
    rw [hrun, hmoved.deeds, hempty, List.nil_append]
    exact ⟨rest, hrest⟩
  | finished hcont =>
    have hq : q ≠ [] := List.ne_nil_of_length_pos (by omega)
    obtain ⟨w', hrun, hmoved⟩ := execute_finished stack hq hw hcont
    obtain ⟨rest, hrest⟩ :=
      turns_split host (entry stack q (shellWorld files memory).files) hk le_rfl
    rw [hrun, hmoved.deeds, hempty, List.nil_append, hrest, List.append_assoc]
    exact ⟨_, rfl⟩

/-- The shell blocks for a command of the foreground before it starts the next one. -/
theorem AtWaits.of_next (hhost : host.Succeeds) {files : JobFiles} {memory : Memory}
    (h : AtWaits P [] (deeds (run host.system (executeCommandsInQueue stack q)
      (shellWorld files memory)).1))
    (hcmd : q[i]? = some cmd) (hnext : i + 1 < q.length) (hpipe : cmd.connectionMask ≠ .pipe)
    (hback : cmd.connectionMask ≠ .background) :
    P i (turnAt host q (entry stack q files) (i + 1)).2.fds := by
  obtain ⟨rest, hrest⟩ := execute_split hhost stack files memory hnext
  rw [hrest] at h
  have hcounted := entry_counted host stack files hnext.le
  have hlast := hcounted.last
  have hpid := hcounted.pid
  rw [if_neg (Nat.succ_ne_zero i), Nat.add_sub_cancel] at hlast hpid
  rw [hcmd] at hlast
  have hpos : host.pid i ≠ -1 := by
    obtain ⟨pid, hfork⟩ := Option.isSome_iff_exists.mp (hhost.forks i)
    rw [Host.pid, hfork]
    dsimp only
    omega
  have hwaits := h.left.right
  rw [waited_eq hlast (hpid ▸ hpos) hpipe hback, List.nil_append] at hwaits
  refine AtWaits.singleton_iff.mp hwaits (host.pid i) i (congrArg some hpid) ?_
  exact processOf_last host stack files (by omega)

end Redshell
