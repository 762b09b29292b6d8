import Redshell.Told
import Redshell.Waits

/-! The resources and the array elements that a run of the executor uses. -/
namespace Redshell

abbrev JobEntry := Entry Redirection Routine

/-- The shell closes only what a call of this run returned to it and waits only for what it forked
in this run, and no element of the arrays is read before it is assigned. -/
structure UsesOwn (n : Nat) (trace : List JobEntry) : Prop where
  closes : ∀ pre e post fd, trace = pre ++ e :: post → e.process = none → e.event = .close fd →
    ∃ e' ∈ pre, e'.process = none ∧ fd ∈ e'.event.numbers
  waits : ∀ pre e post pid, trace = pre ++ e :: post → e.process = none →
    e.event = .waitpid pid ∨ e.event = .reap pid →
    0 < pid ∧ ∃ e' ∈ pre, e'.process = none ∧ ∃ i, e'.event = .fork i pid
  loads : ∀ pre e post (array : Arr) j, trace = pre ++ e :: post →
    e.event = .call (.load array j) → array.InRange n j →
    ∃ e' ∈ pre, e'.process = none ∧ e'.event = .call (.store array j)

/-- Every subscript of `pipes`, in the shell and in its children, is in range. -/
def InBounds (n : Nat) (trace : List JobEntry) : Prop :=
  ∀ e ∈ trace, ∀ j, e.event = .call (.load .pipes j) ∨ e.event = .call (.store .pipes j) →
    Arr.pipes.InRange n j

variable {own bounded : Prop} {q queue : Queue} {m : History} {pre post tr : List JobEntry}
  {e : JobEntry} {event : JobEvent} {host : Host} {stack : Stack} {w w' : JobWorld} {l : Locals}
  {cmd : Command} {j : Int} {i n : Nat} {α : Type} {supply : Supply} {s : Set (Arr × Int)}
  {array : Arr}

theorem mem_after_usage : event ∈ (usage own bounded q).after m tr ↔
    event ∈ m ∨ ∃ e ∈ tr, e.process = none ∧ e.event = event := by
  induction tr generalizing m with
  | nil => simp [Observer.after]
  | cons e tr ih =>
    rw [Observer.after, ih]
    cases hprocess : e.process with
    | none =>
      change event ∈ insert e.event m ∨ _ ↔ _
      rw [Set.mem_insert_iff, List.exists_mem_cons_iff]
      simp only [hprocess, true_and]
      tauto
    | some name => simp [hprocess]

/-- The run from a world with an empty trace is what the observer allows. -/
theorem execute_accepts (stack : Stack) (hown : own → AllPiped host q)
    (hmade : own → PipesMade host supply q)
    (hbounded : bounded → Ended q ∧ ¬ StartsPiped host q) (hw : w.process = none)
    (htrace : w.trace = []) :
    (usage own bounded q).Accepts ∅
      (run (host.systemIn supply) (executeCommandsInQueue stack q) w).1.trace := by
  obtain ⟨tr, hrun, haccepts, _⟩ := (execute_keeps stack hown hmade hbounded ∅).run hw
  rw [hrun, htrace]
  exact haccepts

/-- An access of the run, of the shell or of a child. -/
theorem access_allowed {routine : Routine}
    (h : (usage own bounded q).Accepts ∅ (pre ++ e :: post)) (he : e.event = .call routine) :
    Access own bounded q ((usage own bounded q).after ∅ pre) routine := by
  have hallowed := h.allowed
  rw [he] at hallowed
  split at hallowed
  · exact hallowed
  · exact hallowed

theorem usesOwn_of_accepts (h : (usage True False q).Accepts ∅ tr) : UsesOwn q.length tr := by
  have hearlier : ∀ {pre : List JobEntry} {event : JobEvent},
      event ∈ (usage True False q).after ∅ pre →
      ∃ e ∈ pre, e.process = none ∧ e.event = event := by
    intro pre event hevent
    exact (mem_after_usage.mp hevent).resolve_left (Set.notMem_empty event)
  refine ⟨?_, ?_, ?_⟩
  · rintro pre e post fd rfl hprocess hevent
    have hallowed := h.allowed
    rw [hprocess, hevent] at hallowed
    obtain ⟨event, hmem, hfd⟩ := hallowed trivial
    obtain ⟨e', he', hown, rfl⟩ := hearlier hmem
    exact ⟨e', he', hown, hfd⟩
  · rintro pre e post pid rfl hprocess hevent
    have hforked : ((usage True False q).after ∅ pre : History).Forked pid := by
      have hallowed := h.allowed
      rcases hevent with hevent | hevent <;> rw [hprocess, hevent] at hallowed <;>
        exact hallowed trivial
    obtain ⟨hpos, i, hmem⟩ := hforked
    obtain ⟨e', he', hown, hfork⟩ := hearlier hmem
    exact ⟨hpos, e', he', hown, i, hfork⟩
  · rintro pre e post array j rfl hevent hrange
    exact hearlier ((access_allowed h hevent).1 trivial hrange)

theorem inBounds_of_accepts (h : (usage False True q).Accepts ∅ tr) : InBounds q.length tr := by
  intro e he j hevent
  obtain ⟨pre, post, rfl⟩ := List.append_of_mem he
  rcases hevent with hevent | hevent
  · exact (access_allowed h hevent).2 trivial rfl
  · exact access_allowed h hevent trivial

/-! What a run does read. -/

/-- The rest of a run keeps what is in the trace. -/
theorem mem_run (sys : System Redirection Routine Memory) (p : Job α) (he : e ∈ w.trace) :
    e ∈ (run sys p w).1.trace := by
  obtain ⟨tr, htrace, _⟩ := Extends.trace sys p w
  rw [htrace]
  exact List.mem_append_left _ he

theorem mem_run_call {sys : System Redirection Routine Memory} {routine : Routine}
    {next : Int → Job α} {status : Int} {memory : Memory}
    (hdone : sys.perform routine w.memory = .returned status memory) :
    ⟨w.process, w.files.fds, .call routine⟩ ∈ (run sys (.call routine next) w).1.trace := by
  rw [run, hdone]
  exact mem_run _ _ (List.mem_append_right _ (List.mem_singleton_self _))

theorem mem_after_assigned : (array, j) ∈ (assigned n).after s tr ↔
    (array, j) ∈ s ∨ ∃ e ∈ tr, e.process = none ∧ e.event = .call (.store array j) := by
  induction tr generalizing s with
  | nil => simp [Observer.after]
  | cons e tr ih =>
    rw [Observer.after, ih, List.exists_mem_cons_iff]
    cases hprocess : e.process with
    | some name => simp
    | none =>
      have hlearns : (array, j) ∈ (assigned n).learns s e.event ↔
          e.event = .call (.store array j) ∨ (array, j) ∈ s := by
        cases hevent : e.event with
        | call routine => cases routine <;> simp [assigned, eq_comm]
        | _ => simp [assigned]
      change (array, j) ∈ (assigned n).learns s e.event ∨ _ ↔ _
      rw [hlearns]
      simp only [true_and]
      tauto

theorem assigned_accepts (h : UsesOwn n tr) : (assigned n).Accepts ∅ tr := by
  have hsuffix : ∀ pre post, tr = pre ++ post →
      (assigned n).Accepts ((assigned n).after ∅ pre) post := by
    intro pre post
    induction post generalizing pre with
    | nil => exact fun _ => trivial
    | cons e post ih =>
      intro hsplit
      have hload : ∀ array j, e.event = .call (.load array j) → array.InRange n j →
          (array, j) ∈ (assigned n).after ∅ pre :=
        fun array j hevent hrange =>
          mem_after_assigned.mpr (.inr (h.loads pre e post array j hsplit hevent hrange))
      refine ⟨?_, ?_⟩
      · cases hprocess : e.process with
        | none =>
          change (assigned n).allows _ e.event
          cases hevent : e.event with
          | call routine =>
            cases routine with
            | load array j => exact hload array j hevent
            | _ => trivial
          | reap pid => exact (h.waits pre e post pid hsplit hprocess (.inr hevent)).1
          | _ => trivial
        | some name =>
          change (assigned n).allowsChild _ e.event
          cases hevent : e.event with
          | call routine =>
            cases routine with
            | load array j => exact hload array j hevent
            | _ => trivial
          | _ => trivial
      · have hnext := ih (pre ++ [e]) (by simp [hsplit])
        rwa [Observer.after_append] at hnext
  exact hsuffix [] tr rfl

/-- A run that uses only own resources goes over all commands only when each is in a pipeline and
gets a child, and has made the pipes for every child. -/
theorem allPiped_of_usesOwn (hw : w.process = none) (htrace : w.trace = [])
    (h : UsesOwn q.length
      (run (host.systemIn supply) (executeCommandsInQueue stack q) w).1.trace) :
    AllPiped host q ∧ PipesMade host supply q := by
  obtain ⟨tr, hrun, htells⟩ := (execute_tells host supply stack q).run hw
  rw [hrun, htrace] at h
  obtain ⟨hreturned, hended⟩ := htells (assigned_accepts h)
  by_contra hnot
  exact hnot (hended fun a ha => hnot (hreturned a ha))

/-! Which queues keep to their own resources, and to the bounds. -/

/-- Only own resources are used exactly when the loop stops before its end or every command is in a
pipeline and gets a child, and the pipes are made for every child. -/
theorem execute_usesOwn_iff (host : Host) (supply : Supply) (stack : Stack) (files : JobFiles)
    (memory : Memory) (q : Queue) :
    UsesOwn q.length (run (host.systemIn supply) (executeCommandsInQueue stack q)
        (shellWorld files memory)).1.trace ↔ AllPiped host q ∧ PipesMade host supply q := by
  constructor
  · exact allPiped_of_usesOwn rfl rfl
  · intro h
    exact usesOwn_of_accepts
      (execute_accepts stack (fun _ => h.1) (fun _ => h.2) False.elim rfl rfl)

/-- For `ls` the element of `launched` that is read was never assigned. -/
theorem execute_reads_unassigned :
    ¬ ∀ (wordexp : Wordexp) (ss : Session) (line : CString) (r : Parse),
      parseInput wordexp ss line = .ok r → ∀ (host : Host) stack files memory,
      UsesOwn r.queue.length (run host.system (executeCommandsInQueue stack r.queue)
        (shellWorld files memory)).1.trace := by
  intro hall
  obtain ⟨r, hparse, hok⟩ := exists_parse (fun _ text => some [text])
    ⟨Dictionary.empty.toAliases, [], 0⟩ (bytes "ls") (by decide +kernel)
  have hqueue : (parseInput (fun _ text => some [text]) ⟨Dictionary.empty.toAliases, [], 0⟩
      (bytes "ls")).map (fun r => (r.queue.length, pipedAt r.queue 0,
        r.queue.getLast?.map fun cmd => isBuiltin cmd.path)) =
      .ok (1, false, some (some false)) := by decide +kernel
  rw [hparse] at hqueue
  have hshape := Except.ok.inj hqueue
  simp only [Prod.mk.injEq, Option.map_eq_some_iff] at hshape
  obtain ⟨hlength, hsingle, last, hlast, hbuiltin⟩ := hshape
  have hcont : Continues willing r.queue r.queue.length := by
    apply continues_of_succeeds willing_succeeds
    rintro ⟨last', hlast', _, _, hshell⟩
    cases hlast.symm.trans hlast'
    exact hshell hbuiltin
  have hpiped := (allPiped_of_usesOwn rfl rfl (hall _ _ _ r hparse willing zeroStack
    ⟨[], 0⟩ ⟨⟨[], fun _ => none, Dictionary.empty.toAliases⟩, 0⟩)).1 hcont 0 (by omega)
  rw [hsingle] at hpiped
  exact Bool.false_ne_true hpiped.1

/-- The child of the first command of a pipeline reads two elements before the start. -/
theorem reads_of_startsPiped (stack : Stack) (hw : w.process = none) (h : StartsPiped host q) :
    ∃ e ∈ (run host.system (executeCommandsInQueue stack q) w).1.trace,
      e.event = .call (.load .pipes (-2)) := by
  obtain ⟨cmd, hcmd, hmask, hok, hforks⟩ := h
  have hq : q ≠ [] := List.ne_nil_of_length_pos (lt_of_turn hcmd)
  obtain ⟨w₁, hrun₁, hmoved₁⟩ := execute_entry host stack hq hw
  generalize hl : (entry stack q w.files).1 = l at hrun₁
  have hstarting : Starting q l := hl ▸ entry_starting stack q w.files
  have hdrop : q = cmd :: q.drop 1 := drop_turn hcmd
  obtain ⟨w₂, hrun₂, hquiet₂, hw₂⟩ := prepare_leaves (f := w₁.files) (l := l)
    (hstarting.index.symm ▸ hok) w₁ rfl
  obtain ⟨w₃, hrun₃, hquiet₃, hw₃⟩ :=
    (startPipeline_leaves (l.prepared w₁.files cmd).1 : Leaves host _ _ _ _ _) w₂ hw₂
  change Returns _ _ _ (l.ready w₁.files cmd).1 _ at hrun₃
  have hframe := ready_frame l w₁.files cmd
  generalize (l.ready w₁.files cmd).1 = l' at hrun₃ hframe
  have hindex : l'.i = 0 := by
    rw [hframe]
    exact hstarting.index
  obtain ⟨pid, hpid⟩ := Option.isSome_iff_exists.mp hforks
  have hsys : host.system.forks l'.i = some pid := hindex.symm ▸ hpid
  rw [hrun₁, hdrop, commandLoop, hrun₂.run_bind]
  dsimp only
  rw [if_pos (.inr hmask), hrun₃.run_bind, run, hsys]
  dsimp only
  -- The child's events are in the trace before the parent goes on.
  obtain ⟨w₄, hrun₄, _⟩ := (connectFirst_leaves l' : Leaves host _ _ _ _ _)
    ((w₃.log (.fork l'.i pid)).child l'.i) rfl
  have hread : ∃ e ∈ (run host.system (pipedChild l' cmd (q.drop 1) : Job (Int × Queue))
      ((w₃.log (.fork l'.i pid)).child l'.i)).1.trace, e.event = .call (.load .pipes (-2)) := by
    unfold pipedChild
    rw [hrun₄.run_bind, connectRest, if_neg (not_not.mpr hmask), hindex]
    exact ⟨_, mem_run_call rfl, rfl⟩
  obtain ⟨e, he, hevent⟩ := hread
  exact ⟨e, mem_run _ _ (List.mem_append_right _ he), hevent⟩

/-- All subscripts of `pipes` are in range exactly when the run makes no child for a first command
that is followed by a pipe. -/
theorem execute_inBounds_iff (wordexp : Wordexp) (st : Aliases) (created : Nat) (line : CString)
    (hline : ∀ c ∈ line, c ≠ 0) (hmain : line ∈ mainRule) (r : Parse)
    (hparse : parseInput wordexp ⟨st, [], created⟩ line = .ok r)
    (hok : ∀ call ∈ r.session.calls, call.glob = true → call.result ≠ none)
    (host : Host) (stack : Stack) (files : JobFiles) (memory : Memory) :
    InBounds r.queue.length (run host.system (executeCommandsInQueue stack r.queue)
        (shellWorld files memory)).1.trace ↔ ¬ StartsPiped host r.queue := by
  have hended := parseInput_ended hline hmain hparse hok
  constructor
  · intro h hstarts
    obtain ⟨e, he, hevent⟩ := reads_of_startsPiped stack (w := shellWorld files memory) rfl hstarts
    have hrange := (h e he (-2) (.inl hevent)).1
    omega
  · intro hstarts
    exact inBounds_of_accepts
      (execute_accepts stack False.elim False.elim (fun _ => ⟨hended, hstarts⟩) rfl rfl)

theorem execute_inBounds_iff_ls :
    ∃ r, parseInput (fun _ text => some [text]) ⟨Dictionary.empty.toAliases, [], 0⟩
        (bytes "pwd; ls | wc") = .ok r ∧
      (InBounds r.queue.length (run willing.system (executeCommandsInQueue zeroStack r.queue)
        (shellWorld ⟨[], 0⟩ ⟨⟨[], fun _ => none, Dictionary.empty.toAliases⟩, 0⟩)).1.trace ↔
          ¬ StartsPiped willing r.queue) := by
  obtain ⟨r, hparse, hok⟩ := exists_parse (fun _ text => some [text])
    ⟨Dictionary.empty.toAliases, [], 0⟩ (bytes "pwd; ls | wc") (by decide +kernel)
  exact ⟨r, hparse, execute_inBounds_iff _ _ _ _ (by decide +kernel) (by decide +kernel) r
    hparse hok willing zeroStack _ _⟩

/-- In `ls | wc` the child for `ls` reads `pipes[-2]`. -/
theorem execute_reads_outside :
    ¬ ∀ (wordexp : Wordexp) (st : Aliases) (created : Nat) (line : CString),
      (∀ c ∈ line, c ≠ 0) → line ∈ mainRule →
      ∀ r, parseInput wordexp ⟨st, [], created⟩ line = .ok r →
      (∀ call ∈ r.session.calls, call.glob = true → call.result ≠ none) →
      ∀ (host : Host) stack files memory, InBounds r.queue.length
        (run host.system (executeCommandsInQueue stack r.queue)
          (shellWorld files memory)).1.trace := by
  intro hall
  obtain ⟨r, hparse, hok⟩ := exists_parse (fun _ text => some [text])
    ⟨Dictionary.empty.toAliases, [], 0⟩ (bytes "ls | wc") (by decide +kernel)
  have hfirst : (parseInput (fun _ text => some [text]) ⟨Dictionary.empty.toAliases, [], 0⟩
      (bytes "ls | wc")).map (fun r => r.queue[0]?.map fun cmd => cmd.connectionMask) =
      .ok (some .pipe) := by decide +kernel
  rw [hparse] at hfirst
  obtain ⟨cmd, hcmd, hmask⟩ := Option.map_eq_some_iff.mp (Except.ok.inj hfirst)
  have hstarts : StartsPiped willing r.queue :=
    ⟨cmd, hcmd, hmask, willing_succeeds.failsAt 0 cmd, rfl⟩
  obtain ⟨e, he, hevent⟩ := reads_of_startsPiped zeroStack
    (w := shellWorld ⟨[], 0⟩ ⟨⟨[], fun _ => none, Dictionary.empty.toAliases⟩, 0⟩) rfl hstarts
  have hrange := (hall _ _ _ _ (by decide +kernel) (by decide +kernel) r hparse hok willing
    zeroStack _ _ e he (-2) (.inl hevent)).1
  omega

end Redshell
