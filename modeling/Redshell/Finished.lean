import Redshell.Passive
import Redshell.Sequences

/-! Foreground commands have ended when the shell goes on. -/
namespace Redshell

/-- The command runs in the foreground and on its own. -/
def Single (q : Queue) (i : Nat) : Prop :=
  ∃ cmd, q[i]? = some cmd ∧ cmd.connectionMask ≠ .background ∧ pipedAt q i = false

/-- The process of a command has not ended. -/
def Moment.Runs (m : JobMoment) (i : Nat) : Prop :=
  ∃ kid ∈ m.children.kids, kid.child = .forked i ∧ kid.life = .running

/-- The command that the shell makes a child for or executes itself. -/
def Request.starts : Request Routine → Option Nat
  | fork i => some i
  | call (.execute i _) => some i
  | _ => none

/-- When the shell starts a later command or returns, the command's process has ended. -/
def EndsFirst (q : Queue) (c : Config Redirection Routine Memory (Int × Queue)) : Prop :=
  ∀ i, Single q i →
    (∃ r j, c.control.request = some r ∧ r.starts = some j ∧ i < j) ∨
      (∃ value, c.control = .running (.ret value)) →
    ¬ c.moment.Runs i

/-- The step does not interrupt a `waitpid`, whose result is not looked at, for such a command. -/
def Unbroken (q : Queue) (r : Option (Request Routine)) (m : JobMoment) (act : Act) : Prop :=
  ∀ pid reaps, r = some (.waitpid pid) → act = .wait (.interrupted reaps) →
    ∀ kid ∈ m.children.kids, (kid.pid : Int) = pid → kid.life = .running →
      ∀ i, kid.child = .forked i → ¬ Single q i

/-- What holds when a command starts. -/
def StartsAfter (q : Queue) (r : Request Routine) (m : JobMoment) : Prop :=
  ∀ i j, Single q i → r.starts = some j → i < j → ¬ m.Runs i

def AllEnded (q : Queue) (m : JobMoment) : Prop := ∀ i, Single q i → ¬ m.Runs i

/-- At the turn of an index, before its wait. -/
structure BeforeWait (q : Queue) (k : Nat) (pid : Int) (m : JobMoment) : Prop where
  ended : ∀ i, i + 1 < k → Single q i → ¬ m.Runs i
  last : ∀ kid ∈ m.children.kids, ∀ i, kid.child = .forked i → i + 1 = k → (kid.pid : Int) = pid
  made : ∀ kid ∈ m.children.kids, ∀ i, kid.child = .forked i → i < k

structure AfterWait (q : Queue) (k : Nat) (m : JobMoment) : Prop where
  ended : ∀ i < k, Single q i → ¬ m.Runs i
  made : ∀ kid ∈ m.children.kids, ∀ i, kid.child = .forked i → i < k

variable {host : Host} {q queue : Queue} {i k : Nat} {cmd : Command} {l : Locals} {pid : Int}
  {m m' : JobMoment}

theorem Moment.runs_of_evolves (h : m.children.Evolves m'.children) (hruns : m'.Runs i) :
    m.Runs i := by
  obtain ⟨kid', hkid', hchild, hlife⟩ := hruns
  obtain ⟨kid, hkid, hgrows⟩ := h.origin kid' hkid'
  exact ⟨kid, hkid, hgrows.child.symm.trans hchild, hgrows.running hlife⟩

theorem beforeWait_lasting (q : Queue) (k : Nat) (pid : Int) : Lasting (BeforeWait q k pid) := by
  intro m m' hevolves hm
  refine ⟨fun i hi hsingle hruns => ?_, fun kid' hkid' i hchild hi => ?_,
    fun kid' hkid' i hchild => ?_⟩
  · exact hm.ended i hi hsingle (Moment.runs_of_evolves hevolves hruns)
  · obtain ⟨kid, hkid, hgrows⟩ := hevolves.origin kid' hkid'
    rw [hgrows.pid]
    exact hm.last kid hkid i (hgrows.child.symm.trans hchild) hi
  · obtain ⟨kid, hkid, hgrows⟩ := hevolves.origin kid' hkid'
    exact hm.made kid hkid i (hgrows.child.symm.trans hchild)

theorem afterWait_lasting (q : Queue) (k : Nat) : Lasting (AfterWait q k) := by
  intro m m' hevolves hm
  refine ⟨fun i hi hsingle hruns => ?_, fun kid' hkid' i hchild => ?_⟩
  · exact hm.ended i hi hsingle (Moment.runs_of_evolves hevolves hruns)
  · obtain ⟨kid, hkid, hgrows⟩ := hevolves.origin kid' hkid'
    exact hm.made kid hkid i (hgrows.child.symm.trans hchild)

theorem allEnded_lasting (q : Queue) : Lasting (AllEnded q) :=
  fun _ _ hevolves hm i hsingle hruns =>
  hm i hsingle (Moment.runs_of_evolves hevolves hruns)

theorem AfterWait.allEnded (h : AfterWait q k m) : AllEnded q m := by
  intro i hsingle hruns
  obtain ⟨kid, hkid, hchild, _⟩ := id hruns
  exact h.ended i (h.made kid hkid i hchild) hsingle hruns

theorem startsAfter_passive (q : Queue) {r : Routine} (hr : r.Passive) (m : JobMoment) :
    StartsAfter q (.call r) m := by
  intro i j _ hstarts
  cases r with
  | execute i cmd => exact absurd hr id
  | _ => cases hstarts

theorem AfterWait.startsAfter (h : AfterWait q k m) {r : Request Routine}
    (hr : ∀ j, r.starts = some j → j = k) : StartsAfter q r m := by
  intro i j hsingle hstarts hij
  rw [hr j hstarts] at hij
  exact h.ended i hij hsingle

/-- A new child is the one of the next turn. -/
theorem AfterWait.fork (h : AfterWait q k m) (hfork : m.fork host.system k = some (pid, m')) :
    pid ≠ 0 ∧ BeforeWait q (k + 1) pid m' := by
  rcases Moment.fork_cases hfork with ⟨_, rfl, hkids⟩ | ⟨p, hfree, _, rfl, hkids⟩
  · refine ⟨by decide, ⟨?_, ?_, ?_⟩⟩
    · rintro i hi hsingle ⟨kid, hkid, hruns⟩
      rw [hkids] at hkid
      exact h.ended i (by omega) hsingle ⟨kid, hkid, hruns⟩
    · intro kid hkid i hchild hi
      rw [hkids] at hkid
      have := h.made kid hkid i hchild
      omega
    · intro kid hkid i hchild
      rw [hkids] at hkid
      have := h.made kid hkid i hchild
      omega
  · refine ⟨by exact_mod_cast p.ne_zero, ⟨?_, ?_, ?_⟩⟩
    · rintro i hi hsingle ⟨kid, hkid, hchild, hlife⟩
      rw [hkids] at hkid
      rcases Children.mem_add.mp hkid with hkid | rfl
      · exact h.ended i (by omega) hsingle ⟨kid, hkid, hchild, hlife⟩
      · cases hchild
        omega
    · intro kid hkid i hchild hi
      rw [hkids] at hkid
      rcases Children.mem_add.mp hkid with hkid | rfl
      · have := h.made kid hkid i hchild
        omega
      · rfl
    · intro kid hkid i hchild
      rw [hkids] at hkid
      rcases Children.mem_add.mp hkid with hkid | rfl
      · have := h.made kid hkid i hchild
        omega
      · cases hchild
        omega

/-- After the wait for the last command it has ended, if it had the foreground for itself. -/
theorem BeforeWait.after (h : BeforeWait q (i + 1) pid m)
    (hlast : Single q i → ∀ kid ∈ m.children.kids, kid.child = .forked i → kid.life ≠ .running) :
    AfterWait q (i + 1) m := by
  refine ⟨fun j hj hsingle hruns => ?_, h.made⟩
  rcases Nat.lt_succ_iff_lt_or_eq.mp hj with hlt | rfl
  · exact h.ended j (by omega) hsingle hruns
  · obtain ⟨kid, hkid, hchild, hlife⟩ := hruns
    exact hlast hsingle kid hkid hchild hlife

/-- The `waitpid` for the last command. -/
theorem BeforeWait.waited {how : Wait} {found : Bool} (h : BeforeWait q (i + 1) pid m)
    (hok : Unbroken q (some (.waitpid pid)) m (.wait how))
    (hwaitpid : m.waitpid pid how = some (found, m')) : AfterWait q (i + 1) m' := by
  have hevolves := Moment.waitpid_evolves hwaitpid
  refine (beforeWait_lasting q (i + 1) pid m m' hevolves h).after ?_
  intro hsingle kid' hkid' hchild' hlife'
  obtain ⟨kid, hkid, hgrows⟩ := hevolves.origin kid' hkid'
  have hchild := hgrows.child.symm.trans hchild'
  have hpid := h.last kid hkid i hchild rfl
  by_cases hinterrupted : ∃ reaps, how = .interrupted reaps
  · obtain ⟨reaps, rfl⟩ := hinterrupted
    exact hok pid reaps rfl rfl kid hkid hpid (hgrows.running hlife') i hchild hsingle
  · subst hpid
    have hfree := Moment.waitpid_free hwaitpid (not_exists.mp hinterrupted)
    refine hfree kid' hkid' ?_ hgrows.pid
    rw [hlife']
    decide

theorem waitForLast_ensures (hl : AtIndex q k l) :
    Ensures host.system (Unbroken q) (StartsAfter q) (BeforeWait q k l.pid) (waitForLast l)
      (fun _ => AfterWait q k) := by
  have hlast := hl.last
  rw [waitForLast]
  cases k with
  | zero =>
    rw [if_pos rfl] at hlast
    rw [hlast]
    refine .ret (afterWait_lasting q 0).stable fun m hm => ⟨fun i hi => ?_, hm.made⟩
    exact absurd hi (Nat.not_lt_zero i)
  | succ i =>
    rw [if_neg (Nat.succ_ne_zero i), Nat.add_sub_cancel] at hlast
    cases hlastCommand : l.lastCommand with
    | none =>
      rw [hlastCommand] at hlast
      refine .ret (afterWait_lasting q (i + 1)).stable fun m hm => hm.after ?_
      rintro ⟨cmd, hcmd, _⟩
      cases hlast.trans hcmd
    | some last =>
      rw [hlastCommand] at hlast
      dsimp only
      split
      · refine .waitpid (beforeWait_lasting q (i + 1) l.pid).stable (afterWait_lasting q (i + 1))
          ?_ ?_ (.ret (afterWait_lasting q (i + 1)).stable fun m hm => hm)
        · intro m _ i j _ hstarts
          cases hstarts
        · intro m how found m' hm hok hwaitpid
          exact hm.waited hok hwaitpid
      · next hguard =>
        refine .ret (afterWait_lasting q (i + 1)).stable fun m hm => hm.after ?_
        rintro ⟨cmd, hcmd, hback, hsingle⟩ kid hkid hchild
        cases hlast.trans hcmd
        have hpid := hm.last kid hkid i hchild rfl
        have hpos := kid.pid.pos
        refine absurd ⟨?_, (unpiped_of_false hcmd hsingle).2, hback⟩ hguard
        omega

theorem finishQueue_ensures (hl : AtIndex q k l) :
    Ensures host.system (Unbroken q) (StartsAfter q) (BeforeWait q k l.pid) (finishQueue l)
      (fun _ => AllEnded q) := by
  have hquiet : ∀ r : Routine, r.Passive → ∀ m, StartsAfter q (.call r) m :=
    fun r hr m => startsAfter_passive q hr m
  have hbefore := beforeWait_lasting q k l.pid
  have hafter := afterWait_lasting q k
  rw [finishQueue]
  refine .bind_yields (closepipes_yields _ _) hbefore hquiet fun _ _ => ?_
  refine .bind_yields (restore_yields l) hbefore hquiet fun _ _ => ?_
  refine (waitForLast_ensures hl).bind fun _ => ?_
  refine .bind_yields (freeLast_yields l) hafter hquiet fun _ _ => ?_
  refine ((reapLaunched_ensures hafter hquiet _ _).consequence (fun _ hm => hm)
    fun _ m hm => hm.1).bind fun _ => ?_
  refine .call hafter (fun m _ => hquiet (.setFgPid 0) trivial m) fun _ => ?_
  exact .ret (allEnded_lasting q).stable fun m hm => hm.allEnded

/-- The child of a turn is made after the wait, and is what the next turn waits for. -/
theorem fork_ensures {α : Type} {child : Job α} {parent : Int → Job α}
    {B : α → JobMoment → Prop} (hi : l.i = k)
    (hparent : ∀ pid, Ensures host.system (Unbroken q) (StartsAfter q) (BeforeWait q (k + 1) pid)
      (parent pid) B) :
    Ensures host.system (Unbroken q) (StartsAfter q) (AfterWait q k)
      (.fork l.i fun pid => if pid = 0 then child else parent pid) B := by
  rw [hi]
  refine .fork (afterWait_lasting q k).stable ?_ (fun m pid m' hm hfork => hm.fork hfork)
    fun pid => .of_fact fun hpid => ?_
  · intro m hm
    refine hm.startsAfter fun j hj => ?_
    cases hj
    rfl
  · rw [if_neg hpid]
    exact hparent pid

/-- From the turn of any command. -/
theorem commandLoop_ensures (hl : AtIndex q k l) (hqueue : q.drop k = queue) :
    Ensures host.system (Unbroken q) (StartsAfter q) (BeforeWait q k l.pid) (commandLoop l queue)
      (fun _ => AllEnded q) := by
  have hquiet : ∀ r : Routine, r.Passive → ∀ m, StartsAfter q (.call r) m :=
    fun r hr m => startsAfter_passive q hr m
  induction queue generalizing k l with
  | nil =>
    rw [commandLoop]
    exact finishQueue_ensures hl
  | cons cmd queue ih =>
    obtain ⟨hcmd, hrest⟩ := turn_of_drop hqueue
    have hafter := afterWait_lasting q k
    have hnext : ∀ (pid : Int) (l' : Locals), AtIndex q (k + 1) l' → l'.pid = pid →
        Ensures host.system (Unbroken q) (StartsAfter q) (BeforeWait q (k + 1) pid)
          (commandLoop l' queue) (fun _ => AllEnded q) := by
      rintro _ l' hl' rfl
      exact ih hl' hrest
    rw [commandLoop, prepare_eq]
    refine ((waitForLast_ensures hl).bind fun _ =>
      .of_yields (redirected_yields l cmd) hafter hquiet).bind fun done => .of_fact fun hdone => ?_
    cases done with
    | none => exact .ret (allEnded_lasting q).stable fun m hm => hm.allEnded
    | some l₁ =>
      have hl₁ := (hdone l₁ rfl).atIndex hl
      dsimp only
      split
      · refine .bind_yields (startPipeline_yields l₁) hafter hquiet fun l₂ hkeeps => ?_
        have hl₂ := hkeeps.atIndex hl₁
        refine fork_ensures hl₂.index fun pid => ?_
        have hbefore := beforeWait_lasting q (k + 1) pid
        refine .call hbefore (fun m _ => hquiet (.store .launched l₂.i) trivial m) fun _ => ?_
        refine .call hbefore (fun m _ => hquiet (.setFgPid pid) trivial m) fun _ => ?_
        refine .bind_yields (freeLast_yields l₂) hbefore hquiet fun _ _ => ?_
        exact hnext pid _ (hl₂.next hcmd _ _) rfl
      · split
        · have hcrash : (.crash : Job (Int × Queue)).Yields Routine.Passive fun _ => True := trivial
          exact (Ensures.of_yields hcrash hafter hquiet).consequence (fun _ hm => hm)
            fun _ m hm => hm.2.allEnded
        · have hfreed : (free cmd >>= fun _ => .ret (0, queue) : Job (Int × Queue)).Yields
            Routine.Passive fun _ => True := ⟨trivial, fun _ => trivial⟩
          refine .call hafter (fun m hm => ?_) fun _ => ?_
          · refine hm.startsAfter fun j hj => ?_
            cases hj
            exact hl₁.index
          · exact (Ensures.of_yields hfreed hafter hquiet).consequence (fun _ hm => hm)
              fun _ m hm => hm.2.allEnded
        · refine fork_ensures hl₁.index fun pid => ?_
          have hbefore := beforeWait_lasting q (k + 1) pid
          refine .bind_yields (restore_yields l₁) hbefore hquiet fun _ _ => ?_
          refine .bind_yields (freeLast_yields l₁) hbefore hquiet fun _ _ => ?_
          exact hnext pid _ (hl₁.next hcmd _ _) rfl

/-- The whole call. -/
theorem execute_ensures (host : Host) (stack : Stack) (q : Queue) :
    Ensures host.system (Unbroken q) (StartsAfter q)
      (fun m => ∀ kid ∈ m.children.kids, ∀ i, kid.child ≠ .forked i)
      (executeCommandsInQueue stack q) (fun _ => AllEnded q) := by
  by_cases hq : q.length = 0
  · rw [executeCommandsInQueue, if_pos hq]
    refine .ret (allEnded_lasting q).stable fun m hm i _ => ?_
    rintro ⟨kid, hkid, hchild, _⟩
    exact hm kid hkid i hchild
  · have hquiet : ∀ r : Routine, r.Passive → ∀ m, StartsAfter q (.call r) m :=
      fun r hr m => startsAfter_passive q hr m
    have hloop : Ensures host.system (Unbroken q) (StartsAfter q) (BeforeWait q 0 (-1))
        (executeCommandsInQueue stack q) (fun _ => AllEnded q) := by
      rw [execute_eq stack hq]
      refine .bind_yields copies_yields (beforeWait_lasting q 0 (-1)) hquiet fun copies _ => ?_
      exact commandLoop_ensures (startLocals_atIndex stack q copies) rfl
    refine hloop.consequence (fun m hm => ⟨fun i hi => ?_, fun kid _ i _ hi => ?_,
      fun kid hkid i hchild => absurd hchild (hm kid hkid i)⟩) fun _ m hm => hm
    · exact absurd hi (Nat.not_lt_zero _)
    · exact absurd hi (Nat.succ_ne_zero i)

/-- In every run without such an interruption, the process of a foreground command on its own has
ended when the shell starts a later command and when it returns. -/
theorem execute_endsFirst (host : Host) (stack : Stack) (q : Queue) (m : JobMoment)
    (hm : ∀ kid ∈ m.children.kids, ∀ i, kid.child ≠ .forked i)
    (c : Config Redirection Routine Memory (Int × Queue))
    (hrun : (⟨.running (executeCommandsInQueue stack q), m⟩ : Config _ _ _ _).Reaches host.system
      (Unbroken q) c) : EndsFirst q c := by
  obtain ⟨hstarts, hreturned⟩ := execute_ensures host stack q m hm c hrun
  rintro i hsingle (⟨r, j, hr, hj, hij⟩ | ⟨value, hvalue⟩)
  · exact hstarts r hr i j hsingle hj hij
  · exact hreturned value hvalue i hsingle

/-- The shell with a job in the background. -/
def withJob : JobMoment where
  world := shellWorld terminal.files terminal.memory
  children := ⟨100, [⟨.older 0, 7, 100, .running⟩], by simp⟩
  errno := .other

theorem withJob_unforked : ∀ kid ∈ withJob.children.kids, ∀ i, kid.child ≠ .forked i := by
  intro kid hkid i
  rw [List.mem_singleton.mp hkid]
  exact Child.noConfusion

/-- `sleep; ls` -/
def sleepThenList : Queue :=
  [commandOf 0 [bytes "sleep"] .sequential, commandOf 1 [bytes "ls"] .none]

/-- From the call to the wait for the first of two commands on their own. -/
def untilWait : List Act := List.replicate 5 .call

/-- The shell waits for `sleep`, which ends, and starts `ls`. -/
theorem execute_endsFirst_sleep :
    ∃ c, (⟨.running (executeCommandsInQueue zeroStack sleepThenList), withJob⟩ :
        Config _ _ _ _).play willing.system
          (untilWait ++ [.disturb (.terminate 1), .wait (.found 1)]) = some c ∧
      c.control.request = some (.fork 1) ∧ EndsFirst sleepThenList c := by
  have hplay : ((⟨.running (executeCommandsInQueue zeroStack sleepThenList), withJob⟩ :
      Config _ _ _ _).play willing.system
        (untilWait ++ [.disturb (.terminate 1), .wait (.found 1)])).map
        (fun c => c.control.request) = some (some (.fork 1)) := by decide +kernel
  obtain ⟨c, hc, hrequest⟩ := Option.map_eq_some_iff.mp hplay
  refine ⟨c, hc, hrequest, execute_endsFirst willing zeroStack sleepThenList withJob
    withJob_unforked c (Config.reaches_of_play ?_ hc)⟩
  rintro act hact r m pid reaps - rfl
  simp [untilWait] at hact

/-- While the shell waits for `sleep`, a job ends; the handler interrupts the wait, and `ls` starts
beside `sleep`. -/
theorem execute_starts_early :
    ¬ ∀ (host : Host) (stack : Stack) (q : Queue) (m : JobMoment),
      (∀ kid ∈ m.children.kids, ∀ i, kid.child ≠ .forked i) →
      ∀ c : Config Redirection Routine Memory (Int × Queue),
        (⟨.running (executeCommandsInQueue stack q), m⟩ : Config _ _ _ _).Reaches host.system
          anyStep c → EndsFirst q c := by
  intro hall
  have hplay : ((⟨.running (executeCommandsInQueue zeroStack sleepThenList), withJob⟩ :
      Config _ _ _ _).play willing.system
        (untilWait ++ [.disturb (.terminate 7), .wait (.interrupted (some 7))])).map
        (fun c => (c.control.request, c.moment.children.kids)) =
      some (some (.fork 1), [⟨.older 0, 7, 100, .reaped⟩, ⟨.forked 0, 1, 100, .running⟩]) := by
    decide +kernel
  obtain ⟨c, hc, hvalues⟩ := Option.map_eq_some_iff.mp hplay
  obtain ⟨hrequest, hkids⟩ := Prod.mk.inj hvalues
  have hends := hall willing zeroStack sleepThenList withJob withJob_unforked c
    (Config.reaches_of_play (fun _ _ _ _ => trivial) hc)
  refine hends 0 ⟨_, rfl, by decide, by decide +kernel⟩
    (.inl ⟨.fork 1, 1, hrequest, rfl, Nat.zero_lt_one⟩) ?_
  refine ⟨⟨.forked 0, 1, 100, .running⟩, ?_, rfl, rfl⟩
  rw [hkids]
  decide

end Redshell
