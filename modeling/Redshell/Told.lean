import Redshell.Evidence
import Redshell.Resources

/-! What the accesses of a run of the executor tell about the queue. -/
namespace Redshell

/-- The elements of the arrays that the shell has assigned; only those are read, and only children
are waited for at the end. -/
def assigned (n : Nat) : Observer (Set (Arr × Int)) Redirection Routine where
  learns m
    | .call (.store array j) => insert (array, j) m
    | _ => m
  allows m
    | .call (.load array j) => array.InRange n j → (array, j) ∈ m
    | .reap pid => 0 < pid
    | _ => True
  allowsChild m
    | .call (.load array j) => array.InRange n j → (array, j) ∈ m
    | _ => True

variable {host : Host} {supply : Supply} {q queue : Queue} {l : Locals} {cmd : Command}
  {s s' : Set (Arr × Int)} {i n : Nat} {α : Type} {E : Prop}

/-! The parts of the executor that assign nothing. -/

theorem waitForLast_tells (l : Locals) :
    Tells (host.systemIn supply) (assigned n) (waitForLast l) s (fun _ s' => s' = s) E := by
  unfold waitForLast
  split
  · exact rfl
  · split
    · exact fun _ => rfl
    · exact rfl

theorem closeOpened_tells (fd : Int) :
    Tells (host.systemIn supply) (assigned n) (closeOpened fd) s (fun _ s' => s' = s) E := by
  unfold closeOpened
  split
  · exact fun _ => rfl
  · exact rfl

theorem dupOpened_tells (fd : Int) (stream : Nat) :
    Tells (host.systemIn supply) (assigned n) (dupOpened fd stream) s (fun _ s' => s' = s) E := by
  unfold dupOpened
  split
  · exact fun _ => rfl
  · exact rfl

theorem freeLast_tells (l : Locals) :
    Tells (host.systemIn supply) (assigned n) (freeLast l) s (fun _ s' => s' = s) E := by
  unfold freeLast
  split
  · exact rfl
  · exact .call (fun memory => ⟨0, memory, rfl⟩) fun _ _ => rfl

theorem restore_tells (l : Locals) :
    Tells (host.systemIn supply) (assigned n) (restore l) s (fun _ s' => s' = s) E :=
  fun _ _ => rfl

theorem closepipes_tells (pipes : Int → Int) (count : Nat) :
    Tells (host.systemIn supply) (assigned n) (closepipes pipes count) s
      (fun _ s' => s' = s) E := by
  induction count with
  | zero => exact rfl
  | succ count ih =>
    refine ih.bind fun _ s' hs => .call (fun memory => ⟨0, memory, rfl⟩) fun _ _ _ => ?_
    exact hs

theorem redirectInput_tells (l : Locals) (cmd : Command) :
    Tells (host.systemIn supply) (assigned n) (redirectInput l cmd) s (fun r s' => s' = s ∧
      host.fails l.i false cmd.redirectFromPath = r.isNone ∧
        ∀ l' ∈ r, ∃ fd, l' = { l with fdIn := fd }) E := by
  unfold redirectInput
  cases hpath : cmd.redirectFromPath with
  | none =>
    refine ⟨rfl, rfl, ?_⟩
    rintro _ ⟨⟩
    exact ⟨l.fdIn, rfl⟩
  | some path =>
    intro r hr _
    change r = -1 ↔ host.opens _ = false at hr
    dsimp only
    split
    · next hfd =>
      refine .call (fun memory => ⟨0, memory, rfl⟩) fun _ _ => ⟨rfl, ?_, ?_⟩
      · simp [Host.fails, hr.mp hfd]
      · rintro _ ⟨⟩
    · next hfd =>
      rw [hr, Bool.not_eq_false] at hfd
      refine ⟨rfl, by simp [Host.fails, hfd], ?_⟩
      rintro _ ⟨⟩
      exact ⟨r, rfl⟩

theorem redirectOutput_tells (l : Locals) (cmd : Command) :
    Tells (host.systemIn supply) (assigned n) (redirectOutput l cmd) s (fun r s' => s' = s ∧
      host.fails l.i true cmd.redirectToPath = r.isNone ∧
        ∀ l' ∈ r, ∃ fd, l' = { l with fdOut := fd }) E := by
  unfold redirectOutput
  cases hpath : cmd.redirectToPath with
  | none =>
    refine ⟨rfl, rfl, ?_⟩
    rintro _ ⟨⟩
    exact ⟨l.fdOut, rfl⟩
  | some path =>
    intro r hr _
    change r = -1 ↔ host.opens _ = false at hr
    dsimp only
    split
    · next hfd =>
      have hnone : ∀ s' : Set (Arr × Int), s' = s → s' = s ∧
          host.fails l.i true (some path) = (none : Option Locals).isNone ∧
            ∀ l' ∈ (none : Option Locals), ∃ fd, l' = { l with fdOut := fd } := by
        intro s' hs
        refine ⟨hs, by simp [Host.fails, hr.mp hfd], ?_⟩
        rintro _ ⟨⟩
      refine .call (fun memory => ⟨0, memory, rfl⟩) fun _ _ => ?_
      split
      · exact fun _ => hnone _ rfl
      · exact hnone _ rfl
    · next hfd =>
      rw [hr, Bool.not_eq_false] at hfd
      refine ⟨rfl, by simp [Host.fails, hfd], ?_⟩
      rintro _ ⟨⟩
      exact ⟨r, rfl⟩

theorem prepare_tells (l : Locals) (cmd : Command) :
    Tells (host.systemIn supply) (assigned n) (prepare l cmd) s (fun r s' => s' = s ∧
      host.failsAt l.i cmd = r.isNone ∧
        ∀ l' ∈ r, l' = { l with fdIn := l'.fdIn, fdOut := l'.fdOut }) E := by
  unfold prepare
  refine (waitForLast_tells l).bind fun _ _ hs => ?_
  subst hs
  refine (closeOpened_tells l.fdIn).bind fun _ _ hs => ?_
  subst hs
  refine (closeOpened_tells l.fdOut).bind fun _ _ hs => ?_
  subst hs
  refine (redirectInput_tells _ cmd).bind fun input _ h => ?_
  obtain ⟨hs, hfails, hinput⟩ := h
  subst hs
  cases input with
  | none =>
    change host.fails l.i false _ = true at hfails
    refine ⟨rfl, ?_, ?_⟩
    · rw [Host.failsAt, hfails]
      rfl
    · rintro _ ⟨⟩
  | some l₁ =>
    obtain ⟨fdIn, rfl⟩ := hinput l₁ rfl
    change host.fails l.i false _ = false at hfails
    refine (redirectOutput_tells _ cmd).bind fun output _ h => ?_
    obtain ⟨hs, hfails', houtput⟩ := h
    subst hs
    change host.fails l.i true _ = _ at hfails'
    cases output with
    | none =>
      refine ⟨rfl, ?_, ?_⟩
      · rw [Host.failsAt, hfails, hfails']
        rfl
      · rintro _ ⟨⟩
    | some l₂ =>
      obtain ⟨fdOut, rfl⟩ := houtput l₂ rfl
      refine (dupOpened_tells fdIn 0).bind fun _ _ hs => ?_
      subst hs
      refine (dupOpened_tells fdOut 1).bind fun _ _ hs => ?_
      subst hs
      refine ⟨rfl, ?_, ?_⟩
      · rw [Host.failsAt, hfails, hfails']
        rfl
      · rintro _ ⟨⟩
        rfl

/-! The others. -/

/-- Only the elements of a pair whose `pipe` succeeds are assigned. -/
theorem makePipes_tells (l : Locals) (count : Nat) :
    Tells (host.systemIn supply) (assigned n) (makePipes l count) s (fun l' s' =>
      l' = { l with pipes := l'.pipes } ∧ ∀ array j, (array, j) ∈ s' → (array, j) ∈ s ∨
        array = .pipes ∧ ∃ pair : Nat, (j = 2 * pair ∨ j = 2 * pair + 1) ∧
          supply.pipes l.i pair = true) E := by
  induction count with
  | zero => exact ⟨rfl, fun array j hmem => .inl hmem⟩
  | succ count ih =>
    refine ih.bind fun l₁ s₁ ⟨hl₁, hstored⟩ read write hresult _ => ?_
    have hi : l₁.i = l.i := by rw [hl₁]
    rw [hi] at hresult
    change read = -1 ↔ supply.pipes l.i count = false at hresult
    dsimp only
    split
    · exact ⟨hl₁, hstored⟩
    · next hread =>
      rw [hresult, Bool.not_eq_false] at hread
      refine .call (fun memory => ⟨0, memory, rfl⟩) fun _ _ =>
        .call (fun memory => ⟨0, memory, rfl⟩) fun _ _ => ⟨by rw [hl₁], fun array j hmem => ?_⟩
      change (array, j) ∈ insert _ (insert _ s₁) at hmem
      rw [Set.mem_insert_iff, Set.mem_insert_iff, Prod.mk.injEq, Prod.mk.injEq] at hmem
      rcases hmem with ⟨rfl, rfl⟩ | ⟨rfl, rfl⟩ | hmem
      · exact .inr ⟨rfl, count, .inr rfl, hread⟩
      · exact .inr ⟨rfl, count, .inl rfl, hread⟩
      · exact hstored array j hmem

/-- At the end every element of `launched` is read and waited for. -/
theorem reapLaunched_tells (launched : Int → Int) (count : Nat) :
    Tells (host.systemIn supply) (assigned n) (reapLaunched launched count) s (fun _ s' => s' = s ∧
      ∀ i : Nat, i < count → (Arr.launched.InRange n i → (Arr.launched, (i : Int)) ∈ s) ∧
        0 < launched i) E := by
  induction count with
  | zero => exact ⟨rfl, fun i hi => absurd hi (Nat.not_lt_zero i)⟩
  | succ count ih =>
    refine ih.bind fun _ s' ⟨hs, hall⟩ => .call (fun memory => ⟨0, memory, rfl⟩) ?_
    subst hs
    refine fun hload _ hreap => ⟨rfl, fun i hi => ?_⟩
    rcases Nat.lt_succ_iff_lt_or_eq.mp hi with hlt | rfl
    · exact hall i hlt
    · exact ⟨hload, hreap⟩

/-- A child closes every element of `pipes`. -/
theorem closepipes_childTells (pipes : Int → Int) (count : Nat) :
    Tells (host.systemIn supply) ((assigned n).child s) (closepipes pipes count) s'
      (fun _ _ => ∀ j : Nat, j < count → Arr.pipes.InRange n j → (Arr.pipes, (j : Int)) ∈ s) E := by
  induction count with
  | zero => exact fun j hj => absurd hj (Nat.not_lt_zero j)
  | succ count ih =>
    refine ih.bind fun _ s' hall => .call (fun memory => ⟨0, memory, rfl⟩) fun hload _ _ j hj => ?_
    rcases Nat.lt_succ_iff_lt_or_eq.mp hj with hlt | rfl
    · exact hall j hlt
    · exact hload

theorem dupPipe_childTells (l : Locals) (j : Int) (stream : Nat) :
    Tells (host.systemIn supply) ((assigned n).child s) (dupPipe l j stream) s'
      (fun _ _ => True) E :=
  .call (fun memory => ⟨0, memory, rfl⟩) fun _ _ _ => trivial

theorem pipedChild_tells (l : Locals) (cmd : Command) (queue : Queue)
    (hE : (∀ j : Nat, j < 2 * (l.nCommands - 1) → Arr.pipes.InRange n j →
      (Arr.pipes, (j : Int)) ∈ s) → E) :
    Tells (host.systemIn supply) ((assigned n).child s) (pipedChild l cmd queue : Job α) s'
      (fun _ _ => E) E := by
  unfold pipedChild
  have hconnectFirst : Tells (host.systemIn supply) ((assigned n).child s) (connectFirst l) s'
      (fun _ _ => True) E := by
    unfold connectFirst
    split
    · exact dupPipe_childTells l 1 1
    · trivial
  have hconnectRest : ∀ s', Tells (host.systemIn supply) ((assigned n).child s)
      (connectRest l cmd) s' (fun _ _ => True) E := by
    intro s'
    unfold connectRest
    split
    · split
      · exact dupPipe_childTells l _ 0
      · trivial
    · exact (dupPipe_childTells l _ 0).bind fun _ _ _ => dupPipe_childTells l _ 1
  refine hconnectFirst.bind fun _ s₁ _ => (hconnectRest s₁).bind fun _ s₂ _ => ?_
  exact (closepipes_childTells l.pipes _).bind fun _ _ hall => .of_holds _ (hE hall)

/-- What a child tells is known when its parent goes on. -/
theorem fork_tells {child : Job α} {parent : Int → Job α} {C : Prop}
    {Q : α → Set (Arr × Int) → Prop}
    (hchild : (host.forks i).isSome →
      Tells (host.systemIn supply) ((assigned n).child s) child s (fun _ _ => C) C)
    (hparent : ((host.forks i).isSome → C) →
      Tells (host.systemIn supply) (assigned n) (parent (host.pid i)) s Q E) :
    Tells (host.systemIn supply) (assigned n)
      (.fork i fun pid => if pid = 0 then child else parent pid) s Q E := by
  refine .fork (fun hforks _ => ?_) fun pid hforks _ => ?_
  · change host.forks i = none at hforks
    rw [hforks, Host.pid, hforks] at hparent
    exact hparent fun h => (Bool.false_ne_true h).elim
  · change host.forks i = some pid at hforks
    have hpos : (pid : Int) ≠ 0 := by
      have := pid.pos
      omega
    rw [hforks, Host.pid, hforks] at hparent
    rw [hforks] at hchild
    rw [if_neg hpos]
    exact (hchild rfl).mono (fun _ _ h => hparent fun _ => h) fun h => hparent fun _ => h

/-! The loop. -/

/-- At a turn, what is assigned, and that what a child needed was. -/
structure Told (host : Host) (supply : Supply) (q : Queue) (l : Locals) (s : Set (Arr × Int)) :
    Prop where
  count : l.nCommands = q.length
  after : l.afterPipe = afterPipeAt q l.i
  cont : Continues host q l.i
  pipes : ∀ pair : Nat, (Arr.pipes, (2 * pair : Int)) ∈ s → Assigned supply q l.i pair
  launched : ∀ k : Nat, (Arr.launched, (k : Int)) ∈ s →
    pipedAt q k = true ∧ l.launched k = host.pid k
  made : ∀ k < l.i, pipedAt q k = true → (host.forks k).isSome →
    ∀ pair < q.length - 1, Assigned supply q (k + 1) pair

namespace Told

/-- A loop that goes no further, at a turn. -/
theorem stopped (h : Told host supply q l s) (hcmd : q[l.i]? = some cmd)
    (hstops : ¬ Continues host q (l.i + 1)) : AllPiped host q ∧ PipesMade host supply q := by
  have hlt := lt_of_turn hcmd
  refine ⟨fun hcont => absurd (hcont.mono hlt) hstops, fun k _ hcont hpiped hforks => ?_⟩
  refine h.made k ?_ hpiped hforks
  by_contra hk
  exact hstops (hcont.mono (by omega))

/-- A loop that goes over all commands. -/
theorem finished (h : Told host supply q l s) (hindex : l.i = q.length)
    (hall : ∀ k : Nat, k < q.length → (Arr.launched, (k : Int)) ∈ s ∧ 0 < l.launched k) :
    AllPiped host q ∧ PipesMade host supply q := by
  refine ⟨fun _ k hk => ?_, fun k hk _ hpiped hforks => h.made k (hindex ▸ hk) hpiped hforks⟩
  obtain ⟨hmem, hpos⟩ := hall k hk
  obtain ⟨hpiped, hpid⟩ := h.launched k hmem
  refine ⟨hpiped, ?_⟩
  rw [hpid, Host.pid] at hpos
  cases hforks : host.forks k with
  | none =>
    rw [hforks] at hpos
    dsimp only at hpos
    omega
  | some pid => rfl

/-- The redirections of a command do not matter. -/
theorem redirected {fdIn fdOut : Int} (h : Told host supply q l s) :
    Told host supply q { l with fdIn := fdIn, fdOut := fdOut } s :=
  ⟨h.count, h.after, h.cont, h.pipes, h.launched, h.made⟩

/-- The turn of the next command comes. -/
theorem next {pid : Int} {pipes launched : Int → Int} (h : Told host supply q l s)
    (hcmd : q[l.i]? = some cmd) (hcont : Continues host q (l.i + 1))
    (hpipes : ∀ pair : Nat, (Arr.pipes, (2 * pair : Int)) ∈ s' → Assigned supply q (l.i + 1) pair)
    (hlaunched : ∀ k : Nat, (Arr.launched, (k : Int)) ∈ s' →
      pipedAt q k = true ∧ launched k = host.pid k)
    (hmade : pipedAt q l.i = true → (host.forks l.i).isSome →
      ∀ pair < q.length - 1, Assigned supply q (l.i + 1) pair) :
    Told host supply q
      (Locals.next { l with pid := pid, pipes := pipes, launched := launched } cmd) s' := by
  refine ⟨h.count, ?_, hcont, hpipes, hlaunched, fun k hk hpiped hforks => ?_⟩
  · change _ = afterPipeAt q (l.i + 1)
    rw [afterPipeAt_succ hcmd]
    rfl
  · rcases Nat.lt_succ_iff_lt_or_eq.mp hk with hlt | rfl
    · exact h.made k hlt hpiped hforks
    · exact hmade hpiped hforks

end Told

theorem finishQueue_tells (htold : Told host supply q l s) (hindex : l.i = q.length) :
    Tells (host.systemIn supply) (assigned q.length) (finishQueue l) s
      (fun _ _ => AllPiped host q ∧ PipesMade host supply q) E := by
  unfold finishQueue
  refine (closepipes_tells l.pipes _).bind fun _ _ hs => ?_
  subst hs
  refine (restore_tells l).bind fun _ _ hs => ?_
  subst hs
  refine (waitForLast_tells l).bind fun _ _ hs => ?_
  subst hs
  refine (freeLast_tells l).bind fun _ _ hs => ?_
  subst hs
  refine (reapLaunched_tells l.launched _).bind fun _ _ ⟨_, hall⟩ => ?_
  refine .call (fun memory => ⟨0, _, rfl⟩) fun _ _ => htold.finished hindex fun k hk => ?_
  obtain ⟨hmem, hpos⟩ := hall k (htold.count ▸ hk)
  refine ⟨hmem ⟨Int.natCast_nonneg k, ?_⟩, hpos⟩
  exact_mod_cast hk

/-- The pipes that are assigned when a piped command gets its child. -/
theorem startPipeline_tells (htold : Told host supply q l s) (hpiped : pipedAt q l.i = true) :
    Tells (host.systemIn supply) (assigned q.length) (startPipeline l) s (fun l' s' =>
      l' = { l with pipes := l'.pipes } ∧
        (∀ pair : Nat, (Arr.pipes, (2 * pair : Int)) ∈ s' → Assigned supply q (l.i + 1) pair) ∧
        ∀ k : Nat, (Arr.launched, (k : Int)) ∈ s' → (Arr.launched, (k : Int)) ∈ s) E := by
  unfold startPipeline
  split
  · exact ⟨rfl, fun pair hmem => (htold.pipes pair hmem).mono (Nat.le_succ _), fun _ hmem => hmem⟩
  · next hafter =>
    rw [htold.after, Bool.not_eq_true] at hafter
    refine (makePipes_tells l _).mono (fun l' s' ⟨hframe, hstored⟩ => ?_) id
    refine ⟨hframe, fun pair hmem => ?_, fun k hmem => ?_⟩
    · rcases hstored _ _ hmem with hmem | ⟨_, pair', hpair, hmade⟩
      · exact (htold.pipes pair hmem).mono (Nat.le_succ _)
      · obtain rfl : pair = pair' := by omega
        exact ⟨l.i, Nat.lt_succ_self _, hpiped, hafter, hmade⟩
    · exact (hstored _ _ hmem).resolve_right fun h => Arr.noConfusion h.1

/-- The turn of a piped command: its child tells that the pipes are made. -/
theorem pipedTurn_tells {rest : Locals → Job α} {Q : α → Set (Arr × Int) → Prop}
    (hcmd : q[l.i]? = some cmd) (hnext : Continues host q (l.i + 1)) (hpiped : pipedAt q l.i = true)
    (htold : Told host supply q l s)
    (hrest : ∀ l' s', l'.i = l.i + 1 → Told host supply q l' s' →
      Tells (host.systemIn supply) (assigned q.length) (rest l') s' Q E) :
    Tells (host.systemIn supply) (assigned q.length) (startPipeline l >>= fun l =>
      .fork l.i fun pid =>
        if pid = 0 then pipedChild l cmd queue
        else .call (.store .launched l.i) fun _ => .call (.setFgPid pid) fun _ =>
          freeLast l >>= fun _ => rest (Locals.next
            { l with pid := pid, launched := Function.update l.launched l.i pid } cmd)) s Q E := by
  refine (startPipeline_tells htold hpiped).bind fun l₁ s₁ hstarted => ?_
  obtain ⟨hframe, hpipes, hlaunched⟩ := hstarted
  generalize l₁.pipes = pipes at hframe
  subst hframe
  have hchild : (host.forks l.i).isSome → Tells (host.systemIn supply)
      ((assigned q.length).child s₁) (pipedChild { l with pipes := pipes } cmd queue : Job α) s₁
      (fun _ _ => ∀ pair < q.length - 1, Assigned supply q (l.i + 1) pair)
      (∀ pair < q.length - 1, Assigned supply q (l.i + 1) pair) := by
    refine fun _ => pipedChild_tells _ cmd queue fun hall pair hpair => hpipes pair ?_
    have hcount : l.nCommands = q.length := htold.count
    have hmem := hall (2 * pair) (by change _ < 2 * (l.nCommands - 1); omega)
      ⟨by omega, by simp only [Arr.size]; omega⟩
    exact_mod_cast hmem
  refine fork_tells hchild fun hmade => ?_
  refine .call (fun memory => ⟨0, memory, rfl⟩) fun _ _ =>
    .call (fun memory => ⟨0, _, rfl⟩) fun _ _ => ?_
  refine (freeLast_tells _).bind fun _ _ hs => ?_
  subst hs
  refine hrest _ _ rfl (htold.next hcmd hnext (fun pair hmem => hpipes pair ?_)
    (fun k hmem => ?_) fun _ => hmade)
  · exact hmem.resolve_left fun h => Arr.noConfusion (Prod.mk.inj h).1
  · rcases Set.mem_insert_iff.mp hmem with heq | hmem
    · obtain rfl : k = l.i := by exact_mod_cast (Prod.mk.inj heq).2
      rw [Function.update_self]
      exact ⟨hpiped, rfl⟩
    · obtain ⟨hold, hpid⟩ := htold.launched k (hlaunched k hmem)
      refine ⟨hold, ?_⟩
      rw [Function.update_apply]
      split
      · next heq =>
        rw [Int.natCast_inj.mp heq]
      · exact hpid

/-- The turn of a command on its own, in a child that tells nothing. -/
theorem singleTurn_tells {rest : Locals → Job α} {Q : α → Set (Arr × Int) → Prop}
    (hcmd : q[l.i]? = some cmd) (hnext : Continues host q (l.i + 1))
    (hsingle : pipedAt q l.i = false) (htold : Told host supply q l s)
    (hrest : ∀ l' s', l'.i = l.i + 1 → Told host supply q l' s' →
      Tells (host.systemIn supply) (assigned q.length) (rest l') s' Q E) :
    Tells (host.systemIn supply) (assigned q.length) (.fork l.i fun pid =>
      if pid = 0 then singleChild l cmd
      else restore l >>= fun _ => freeLast l >>= fun _ =>
        rest (Locals.next { l with pid := pid } cmd)) s Q E := by
  refine fork_tells (C := True) (fun _ => .of_holds _ trivial) fun _ => ?_
  refine (restore_tells l).bind fun _ _ hs => ?_
  subst hs
  refine (freeLast_tells l).bind fun _ _ hs => ?_
  subst hs
  refine hrest _ _ rfl (htold.next hcmd hnext (fun pair hmem => ?_) htold.launched ?_)
  · exact (htold.pipes pair hmem).mono (Nat.le_succ _)
  · intro hpiped
    rw [hsingle] at hpiped
    cases hpiped

/-- The run of the loop tells that every command is in a pipeline with a child, if the loop goes
over all of them, and that the pipes are made for every child. -/
theorem commandLoop_tells (hqueue : queue = q.drop l.i) (hindex : l.i ≤ q.length)
    (htold : Told host supply q l s) :
    Tells (host.systemIn supply) (assigned q.length) (commandLoop l queue) s
      (fun _ _ => AllPiped host q ∧ PipesMade host supply q)
      (AllPiped host q ∧ PipesMade host supply q) := by
  induction queue generalizing l s with
  | nil =>
    rw [commandLoop]
    exact finishQueue_tells htold (le_antisymm hindex (List.drop_eq_nil_iff.mp hqueue.symm))
  | cons cmd queue ih =>
    have hcmd : q[l.i]? = some cmd := by
      rw [← List.head?_drop, ← hqueue]
      rfl
    have hrest : queue = q.drop (l.i + 1) := by
      rw [← List.tail_drop, ← hqueue]
      rfl
    have hlt := lt_of_turn hcmd
    rw [commandLoop]
    refine (prepare_tells l cmd).bind fun r s' hprepared => ?_
    obtain ⟨hs, hfails, hframe⟩ := hprepared
    cases r with
    | none =>
      refine htold.stopped hcmd fun hcont => ?_
      rw [hcont.opens l.i cmd (Nat.lt_succ_self _) hcmd] at hfails
      cases hfails
    | some l₁ =>
      have hi : l₁.i = l.i := by rw [hframe l₁ rfl]
      have htold₁ : Told host supply q l₁ s' := by
        rw [hframe l₁ rfl, hs]
        exact htold.redirected
      rw [← hi] at hcmd hrest hfails hlt
      clear htold hframe hi hqueue hindex
      have hpiped : (l₁.afterPipe = true ∨ cmd.connectionMask = .pipe) ↔
          pipedAt q l₁.i = true := by
        rw [pipedAt_eq hcmd, htold₁.after]
        simp
      have hloop : ∀ l' s', l'.i = l₁.i + 1 → Told host supply q l' s' →
          Tells (host.systemIn supply) (assigned q.length) (commandLoop l' queue) s'
            (fun _ _ => AllPiped host q ∧ PipesMade host supply q)
            (AllPiped host q ∧ PipesMade host supply q) :=
        fun l' s' hi htold => ih (hi ▸ hrest) (hi ▸ hlt) htold
      dsimp only
      split
      · next hbranch =>
        have hnext : Continues host q (l₁.i + 1) :=
          continues_succ htold₁.cont hcmd hfails fun hsingle => by
            rw [hpiped.mp hbranch] at hsingle
            cases hsingle
        exact pipedTurn_tells hcmd hnext (hpiped.mp hbranch) htold₁ hloop
      · next hbranch =>
        have hsingle : pipedAt q l₁.i = false := by
          rw [hpiped, Bool.not_eq_true] at hbranch
          exact hbranch
        have hstops : ∀ b, runsInShell cmd queue = b → b ≠ some false →
            AllPiped host q ∧ PipesMade host supply q := by
          rintro b rfl hne
          exact htold₁.stopped hcmd fun hcont =>
            hne (hrest ▸ hcont.forks l₁.i cmd (Nat.lt_succ_self _) hcmd hsingle)
        cases hshell : runsInShell cmd queue with
        | none => exact hstops _ hshell (by simp)
        | some b =>
          cases b with
          | true =>
            have hstopped := hstops _ hshell (by simp)
            exact .of_holds _ hstopped
          | false =>
            have hnext : Continues host q (l₁.i + 1) :=
              continues_succ htold₁.cont hcmd hfails fun _ => hrest ▸ hshell
            exact singleTurn_tells hcmd hnext hsingle htold₁ hloop

theorem execute_tells (host : Host) (supply : Supply) (stack : Stack) (q : Queue) :
    Tells (host.systemIn supply) (assigned q.length) (executeCommandsInQueue stack q) ∅
      (fun _ _ => AllPiped host q ∧ PipesMade host supply q)
      (AllPiped host q ∧ PipesMade host supply q) := by
  unfold executeCommandsInQueue
  split
  · next hempty =>
    exact ⟨fun _ i hi => absurd hi (by omega), fun k hk => absurd hk (by omega)⟩
  · refine fun stdinCopy _ stdoutCopy _ => commandLoop_tells rfl (Nat.zero_le _) ?_
    refine ⟨rfl, rfl, ?_, ?_, ?_, fun k hk => absurd hk (Nat.not_lt_zero k)⟩
    · exact ⟨fun i _ hi => absurd hi (Nat.not_lt_zero i),
        fun i _ hi => absurd hi (Nat.not_lt_zero i)⟩
    · exact fun _ hmem => absurd hmem (Set.notMem_empty _)
    · exact fun _ hmem => absurd hmem (Set.notMem_empty _)

end Redshell
