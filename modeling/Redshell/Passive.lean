import Redshell.Interference
import Redshell.Turns

/-! The parts of the executor that have nothing to do with its children. -/
namespace Redshell

abbrev JobMoment := Moment Redirection Routine Memory

/-- The routine does not execute a command. -/
def Routine.Passive : Routine → Prop
  | execute _ _ => False
  | _ => True

/-- The same turn of the loop: only the descriptors differ. -/
structure Locals.Keeps (l l' : Locals) : Prop where
  count : l'.nCommands = l.nCommands
  index : l'.i = l.i
  launched : l'.launched = l.launched
  pid : l'.pid = l.pid
  last : l'.lastCommand = l.lastCommand

/-- The variables at the turn of an index. -/
structure AtIndex (q : Queue) (k : Nat) (l : Locals) : Prop where
  index : l.i = k
  last : l.lastCommand = if k = 0 then none else q[k - 1]?

/-- The rest of `prepare` after its wait. -/
def redirected (l : Locals) (cmd : Command) : Job (Option Locals) := do
  closeOpened l.fdIn
  closeOpened l.fdOut
  match ← redirectInput { l with fdIn := -1, fdOut := -1 } cmd with
  | none => pure none
  | some l =>
    match ← redirectOutput l cmd with
    | none => pure none
    | some l =>
      dupOpened l.fdIn 0
      dupOpened l.fdOut 1
      pure (some l)

variable {l l' l'' : Locals} {cmd : Command} {q queue : Queue} {k : Nat}

theorem prepare_eq (l : Locals) (cmd : Command) :
    prepare l cmd = waitForLast l >>= fun _ => redirected l cmd := rfl

/-- The variables when the loop starts, with the copies of the streams. -/
def startLocals (stack : Stack) (q : Queue) (copies : Int × Int) : Locals where
  nCommands := q.length
  i := 0
  pipes := stack.pipes
  fdIn := -1
  fdOut := -1
  stdinCopy := copies.1
  stdoutCopy := copies.2
  launched := stack.launched
  pid := -1
  lastCommand := none

theorem execute_eq (stack : Stack) (hq : q.length ≠ 0) :
    executeCommandsInQueue stack q =
      (.dup 0 fun stdinCopy => .dup 1 fun stdoutCopy => .ret (stdinCopy, stdoutCopy) : Job _) >>=
        fun copies => commandLoop (startLocals stack q copies) q := by
  rw [executeCommandsInQueue, if_neg hq]
  rfl

theorem startLocals_atIndex (stack : Stack) (q : Queue) (copies : Int × Int) :
    AtIndex q 0 (startLocals stack q copies) := ⟨rfl, rfl⟩

theorem copies_yields : (.dup 0 fun stdinCopy => .dup 1 fun stdoutCopy =>
    .ret (stdinCopy, stdoutCopy) : Job (Int × Int)).Yields Routine.Passive fun _ => True :=
  fun _ _ => trivial

/-- The command whose turn it is, and the queue after it. -/
theorem turn_of_drop (h : q.drop k = cmd :: queue) : q[k]? = some cmd ∧ q.drop (k + 1) = queue := by
  constructor
  · rw [← List.head?_drop, h]
    rfl
  · rw [← List.tail_drop, h]
    rfl

namespace Locals.Keeps

theorem refl (l : Locals) : l.Keeps l := ⟨rfl, rfl, rfl, rfl, rfl⟩

theorem trans (h : l.Keeps l') (h' : l'.Keeps l'') : l.Keeps l'' :=
  ⟨h'.count.trans h.count, h'.index.trans h.index, h'.launched.trans h.launched,
    h'.pid.trans h.pid, h'.last.trans h.last⟩

theorem atIndex (h : l.Keeps l') (hl : AtIndex q k l) : AtIndex q k l' :=
  ⟨h.index.trans hl.index, h.last.trans hl.last⟩

theorem afterPipe (h : l.Keeps l') : l'.afterPipe = l.afterPipe := by
  rw [Locals.afterPipe, Locals.afterPipe, h.last]

end Locals.Keeps

namespace AtIndex

theorem afterPipe (h : AtIndex q k l) : l.afterPipe = afterPipeAt q k := by
  rw [Locals.afterPipe, h.last]
  cases k <;> rfl

theorem next (h : AtIndex q k l) (hcmd : q[k]? = some cmd) (pid : Int) (launched : Int → Int) :
    AtIndex q (k + 1) (Locals.next { l with pid := pid, launched := launched } cmd) :=
  ⟨congrArg (· + 1) h.index, hcmd.symm⟩

end AtIndex

/-! What the parts give. -/

theorem closeOpened_yields (fd : Int) :
    (closeOpened fd).Yields Routine.Passive fun _ => True := by
  rw [closeOpened]
  split <;> trivial

theorem dupOpened_yields (fd : Int) (stream : Nat) :
    (dupOpened fd stream).Yields Routine.Passive fun _ => True := by
  rw [dupOpened]
  split <;> trivial

theorem redirectInput_yields (l : Locals) (cmd : Command) :
    (redirectInput l cmd).Yields Routine.Passive fun done => ∀ l', done = some l' → l.Keeps l' := by
  rw [redirectInput]
  split
  · rintro l' ⟨⟩
    exact .refl l
  · intro fd
    dsimp only
    split
    · refine ⟨trivial, fun _ l' hl' => ?_⟩
      cases hl'
    · rintro l' ⟨⟩
      exact ⟨rfl, rfl, rfl, rfl, rfl⟩

theorem redirectOutput_yields (l : Locals) (cmd : Command) :
    (redirectOutput l cmd).Yields Routine.Passive
      fun done => ∀ l', done = some l' → l.Keeps l' := by
  rw [redirectOutput]
  split
  · rintro l' ⟨⟩
    exact .refl l
  · intro fd
    dsimp only
    split
    · refine ⟨trivial, fun _ => ?_⟩
      dsimp only
      split
      · rintro l' ⟨⟩
      · rintro l' ⟨⟩
    · rintro l' ⟨⟩
      exact ⟨rfl, rfl, rfl, rfl, rfl⟩

theorem redirected_yields (l : Locals) (cmd : Command) :
    (redirected l cmd).Yields Routine.Passive fun done => ∀ l', done = some l' → l.Keeps l' := by
  rw [redirected]
  refine (closeOpened_yields l.fdIn).bind fun _ _ => ?_
  refine (closeOpened_yields l.fdOut).bind fun _ _ => ?_
  refine (redirectInput_yields _ cmd).bind fun done hin => ?_
  cases done with
  | none => rintro l' ⟨⟩
  | some l₁ =>
    have hkeeps : l.Keeps l₁ := by
      have hl₁ := hin l₁ rfl
      exact ⟨hl₁.count, hl₁.index, hl₁.launched, hl₁.pid, hl₁.last⟩
    refine (redirectOutput_yields l₁ cmd).bind fun done hout => ?_
    cases done with
    | none => rintro l' ⟨⟩
    | some l₂ =>
      refine (dupOpened_yields l₂.fdIn 0).bind fun _ _ => ?_
      refine (dupOpened_yields l₂.fdOut 1).bind fun _ _ => ?_
      rintro l' ⟨⟩
      exact hkeeps.trans (hout l₂ rfl)

theorem makePipes_yields (l : Locals) (count : Nat) :
    (makePipes l count).Yields Routine.Passive l.Keeps := by
  induction count with
  | zero => exact .refl l
  | succ count ih =>
    rw [makePipes]
    refine ih.bind fun l₁ hl₁ => ?_
    intro read write
    dsimp only
    split
    · exact hl₁
    · refine ⟨trivial, fun _ => ⟨trivial, fun _ => ?_⟩⟩
      exact ⟨hl₁.count, hl₁.index, hl₁.launched, hl₁.pid, hl₁.last⟩

theorem startPipeline_yields (l : Locals) :
    (startPipeline l).Yields Routine.Passive l.Keeps := by
  rw [startPipeline]
  split
  · exact Locals.Keeps.refl l
  · exact makePipes_yields l _

theorem freeLast_yields (l : Locals) : (freeLast l).Yields Routine.Passive fun _ => True := by
  rw [freeLast]
  split
  · trivial
  · exact ⟨trivial, fun _ => trivial⟩

theorem restore_yields (l : Locals) : (restore l).Yields Routine.Passive fun _ => True := trivial

theorem closepipes_yields (pipes : Int → Int) (count : Nat) :
    (closepipes pipes count).Yields Routine.Passive fun _ => True := by
  induction count with
  | zero => trivial
  | succ count ih =>
    rw [closepipes]
    exact ih.bind fun _ _ => ⟨trivial, fun _ => trivial⟩

section

variable {host : Host} {ok : Option (Request Routine) → JobMoment → Act → Prop}
  {G : Request Routine → JobMoment → Prop} {A : JobMoment → Prop} {α : Type} {part : Job α}
  {V : α → Prop}

/-- Reaping what `launched` has changes nothing that lasts. -/
theorem reapLaunched_ensures (hA : Lasting A) (hG : ∀ r : Routine, r.Passive → ∀ m, G (.call r) m)
    (launched : Int → Int) (count : Nat) :
    Ensures host.system ok G A (reapLaunched launched count) fun _ m =>
      A m ∧ ∀ j < count, ∀ p : ℕ+, launched j = p → m.children.Gone p := by
  induction count with
  | zero =>
    refine .ret ?_ fun m hm => ⟨hm, fun j hj => absurd hj (Nat.not_lt_zero j)⟩
    rintro m m' d hdisturb ⟨hm, hgone⟩
    exact ⟨hA.stable m m' d hdisturb hm, fun j hj => absurd hj (Nat.not_lt_zero j)⟩
  | succ count ih =>
    have hlasting : Lasting fun m : JobMoment =>
        A m ∧ ∀ j < count, ∀ p : ℕ+, launched j = p → m.children.Gone p := by
      rintro m m' hevolves ⟨hm, hgone⟩
      exact ⟨hA m m' hevolves hm, fun j hj p hp => hevolves.gone (hgone j hj p hp)⟩
    rw [reapLaunched]
    refine ih.bind fun _ =>
      .call hlasting (fun m _ => hG (.load .launched count) trivial m) fun _ => ?_
    refine .reap hlasting (.ret ?_ ?_)
    · rintro m m' d hdisturb ⟨hm, hgone⟩
      have hevolves := Moment.disturb_evolves hdisturb
      exact ⟨hA m m' hevolves hm, fun j hj p hp => hevolves.gone (hgone j hj p hp)⟩
    · rintro m ⟨⟨hm, hgone⟩, hlast⟩
      refine ⟨hm, fun j hj p hp => ?_⟩
      rcases Nat.lt_succ_iff_lt_or_eq.mp hj with hlt | rfl
      · exact hgone j hlt p hp
      · exact hlast p hp

end

end Redshell
