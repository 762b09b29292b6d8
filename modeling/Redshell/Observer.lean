import Redshell.Process

/-! Rules for the events of a run, with what the events before them have told. -/
namespace Redshell

/-- What is learnt from the events of a program, and which events are allowed: of the program
itself, and of its children with what was known at their `fork`. -/
structure Observer (M ν κ : Type) where
  learns : M → Event ν κ → M
  allows : M → Event ν κ → Prop
  allowsChild : M → Event ν κ → Prop

variable {M ν κ σ α β : Type} {o : Observer M ν κ} {sys : System ν κ σ} {m m' : M}
  {p : Prog ν κ α} {k : α → Prog ν κ β} {Q Q' : α → M → Prop} {R : β → M → Prop}
  {w : World ν κ σ} {tr tr' pre post : List (Entry ν κ)} {e : Entry ν κ}

namespace Observer

/-- How a child is observed. -/
def child (o : Observer M ν κ) (m : M) : Observer M ν κ :=
  ⟨fun m _ => m, fun _ => o.allowsChild m, fun _ => o.allowsChild m⟩

/-- What is known after a trace. -/
def after (o : Observer M ν κ) : M → List (Entry ν κ) → M
  | m, [] => m
  | m, e :: tr => o.after (if e.process.isNone then o.learns m e.event else m) tr

/-- Every event of a trace is allowed. -/
def Accepts (o : Observer M ν κ) : M → List (Entry ν κ) → Prop
  | _, [] => True
  | m, e :: tr =>
    (if e.process.isNone then o.allows m e.event else o.allowsChild m e.event) ∧
      o.Accepts (if e.process.isNone then o.learns m e.event else m) tr

theorem after_append (o : Observer M ν κ) (m : M) (tr tr' : List (Entry ν κ)) :
    o.after m (tr ++ tr') = o.after (o.after m tr) tr' := by
  induction tr generalizing m with
  | nil => rfl
  | cons e tr ih => exact ih _

theorem accepts_append :
    o.Accepts m (tr ++ tr') ↔ o.Accepts m tr ∧ o.Accepts (o.after m tr) tr' := by
  induction tr generalizing m with
  | nil => exact ⟨fun h => ⟨trivial, h⟩, And.right⟩
  | cons e tr ih =>
    rw [List.cons_append, Accepts, ih, ← and_assoc]
    rfl

/-- An event in an accepted trace is allowed with what is known before it. -/
theorem Accepts.allowed (h : o.Accepts m (pre ++ e :: post)) :
    if e.process.isNone then o.allows (o.after m pre) e.event
    else o.allowsChild (o.after m pre) e.event :=
  (accepts_append.mp h).2.1

/-- The events of children tell nothing. -/
theorem after_children (h : ∀ e ∈ tr, e.process ≠ none) : o.after m tr = m := by
  induction tr generalizing m with
  | nil => rfl
  | cons e tr ih =>
    have hsome : e.process.isNone = false :=
      Option.isNone_eq_false_iff.mpr (Option.isSome_iff_ne_none.mpr (h e List.mem_cons_self))
    rw [after, hsome]
    exact ih fun e' he' => h e' (List.mem_cons_of_mem _ he')

theorem accepts_children (h : ∀ e ∈ tr, e.process ≠ none) :
    o.Accepts m tr ↔ ∀ e ∈ tr, o.allowsChild m e.event := by
  induction tr with
  | nil => exact ⟨fun _ e he => absurd he List.not_mem_nil, fun _ => trivial⟩
  | cons e tr ih =>
    have hsome : e.process.isNone = false :=
      Option.isNone_eq_false_iff.mpr (Option.isSome_iff_ne_none.mpr (h e List.mem_cons_self))
    rw [Accepts, hsome, List.forall_mem_cons]
    exact and_congr_right fun _ => ih fun e' he' => h e' (List.mem_cons_of_mem _ he')

end Observer

/-- The events after the ones there were. -/
def Extends (sys : System ν κ σ) (p : Prog ν κ α) (w : World ν κ σ)
    (P : List (Entry ν κ) → Ending α → Prop) : Prop :=
  ∃ tr, (run sys p w).1.trace = w.trace ++ tr ∧ P tr (run sys p w).2

namespace World

/-! A call for new descriptors is one event of the process, whether it succeeds or not. -/

theorem dup_world (sys : System ν κ σ) (w : World ν κ σ) (fd : Int) :
    (w.dup sys fd).2.process = w.process ∧ (w.dup sys fd).2.trace = w.trace ++
      [⟨w.process, w.files.fds, .dup fd (w.dup sys fd).1⟩] := by
  rw [dup]
  split <;> exact ⟨rfl, rfl⟩

theorem openFile_world (sys : System ν κ σ) (w : World ν κ σ) (name : ν) :
    (w.openFile sys name).2.process = w.process ∧ (w.openFile sys name).2.trace = w.trace ++
      [⟨w.process, w.files.fds, .openFile name (w.openFile sys name).1⟩] := by
  rw [openFile]
  split <;> exact ⟨rfl, rfl⟩

theorem pipe_world (sys : System ν κ σ) (w : World ν κ σ) (start pair : Nat) :
    (w.pipe sys start pair).2.2.process = w.process ∧
      (w.pipe sys start pair).2.2.trace = w.trace ++ [⟨w.process, w.files.fds,
        .pipe (w.pipe sys start pair).1 (w.pipe sys start pair).2.1⟩] := by
  rw [pipe]
  split <;> exact ⟨rfl, rfl⟩

end World

namespace Extends

variable {P P' : List (Entry ν κ) → Ending α → Prop}

/-- One event, and then the others. -/
theorem step {q : Prog ν κ α} {event : Event ν κ} (w' : World ν κ σ) (h : Extends sys q w' P')
    (hrun : run sys p w = run sys q w')
    (htrace : w'.trace = w.trace ++ [⟨w.process, w.files.fds, event⟩])
    (hP : ∀ tr ending, P' tr ending → P (⟨w.process, w.files.fds, event⟩ :: tr) ending) :
    Extends sys p w P := by
  obtain ⟨tr, hfinal, hpost⟩ := h
  refine ⟨⟨w.process, w.files.fds, event⟩ :: tr, ?_, ?_⟩
  · rw [hrun, hfinal, htrace, List.append_assoc, List.singleton_append]
  · rw [hrun]
    exact hP tr _ hpost

/-- No more events. -/
theorem stop {ending : Ending α} (hrun : run sys p w = (w, ending)) (hP : P [] ending) :
    Extends sys p w P := by
  refine ⟨[], ?_, ?_⟩
  · rw [hrun, List.append_nil]
  · rw [hrun]
    exact hP

/-- One last event. -/
theorem last {event : Event ν κ} (ending : Ending α) (hrun : run sys p w = (w.log event, ending))
    (hP : P [⟨w.process, w.files.fds, event⟩] ending) : Extends sys p w P := by
  refine ⟨[⟨w.process, w.files.fds, event⟩], ?_, ?_⟩
  · rw [hrun]
    rfl
  · rw [hrun]
    exact hP

/-- A routine that goes on, or ends the process. -/
theorem call {routine : κ} {next : Int → Prog ν κ α}
    (h : ∀ status memory, sys.perform routine w.memory = .returned status memory →
      Extends sys (next status) { w.log (.call routine) with memory := memory } P')
    (hP : ∀ tr ending, P' tr ending →
      P (⟨w.process, w.files.fds, .call routine⟩ :: tr) ending)
    (hlast : (∀ status memory, sys.perform routine w.memory ≠ .returned status memory) →
      ∀ ending : Ending α, (∀ a, ending ≠ .returned a) →
        P [⟨w.process, w.files.fds, .call routine⟩] ending) :
    Extends sys (.call routine next) w P := by
  cases hperform : sys.perform routine w.memory with
  | returned status memory =>
    refine (h status memory hperform).step _ ?_ rfl hP
    rw [run, hperform]
  | exited =>
    refine .last .exited ?_ (hlast (by simp [hperform]) _ fun a he => by cases he)
    rw [run, hperform]
  | replaced =>
    refine .last .replaced ?_ (hlast (by simp [hperform]) _ fun a he => by cases he)
    rw [run, hperform]
  | crashed =>
    refine .last .crashed ?_ (hlast (by simp [hperform]) _ fun a he => by cases he)
    rw [run, hperform]

/-- A child runs at its `fork`, and its events come before the next ones of its parent. -/
theorem fork {Pchild : List (Entry ν κ) → Ending α → Prop} {name : Nat}
    {next : Int → Prog ν κ α} {pid : ℕ+} (hforks : sys.forks name = some pid)
    (hchild : ∀ w' : World ν κ σ, w'.process = some name → Extends sys (next 0) w' Pchild)
    (h : ∀ w' : World ν κ σ, w'.process = w.process → Extends sys (next pid) w' P')
    (hP : ∀ tr tr' ending ending', Pchild tr ending' → P' tr' ending →
      P (⟨w.process, w.files.fds, .fork name pid⟩ :: (tr ++ tr')) ending) :
    Extends sys (.fork name next) w P := by
  obtain ⟨tr, hfinal, hpost⟩ := hchild ((w.log (.fork name pid)).child name) rfl
  obtain ⟨tr', hfinal', hpost'⟩ := h ((w.log (.fork name pid)).join
    (run sys (next 0) ((w.log (.fork name pid)).child name)).1) rfl
  have hrun : run sys (.fork name next) w = run sys (next pid)
      ((w.log (.fork name pid)).join
        (run sys (next 0) ((w.log (.fork name pid)).child name)).1) := by
    rw [run, hforks]
  refine ⟨⟨w.process, w.files.fds, .fork name pid⟩ :: (tr ++ tr'), ?_, ?_⟩
  · rw [hrun, hfinal']
    change (w.trace ++ [_]) ++ _ ++ _ = _
    rw [hfinal]
    simp [World.child]
  · rw [hrun]
    exact hP tr tr' _ _ hpost hpost'

theorem forks_none {name : Nat} {next : Int → Prog ν κ α} (hforks : sys.forks name = none)
    (w : World ν κ σ) :
    run sys (.fork name next) w = run sys (next (-1)) (w.log (.fork name (-1))) := by
  rw [run, hforks]

/-- A run only adds to the trace. -/
theorem trace (sys : System ν κ σ) (p : Prog ν κ α) (w : World ν κ σ) :
    Extends sys p w fun _ _ => True := by
  induction p generalizing w with
  | ret a => exact .stop rfl trivial
  | crash => exact .stop rfl trivial
  | exit status => exact .last .exited rfl trivial
  | dup fd next ih =>
    exact (ih _ (w.dup sys fd).2).step _ rfl (World.dup_world sys w fd).2 fun _ _ _ => trivial
  | dup2 old new next ih => exact (ih (w.dup2 old new)).step _ rfl rfl fun _ _ _ => trivial
  | close fd next ih => exact (ih (w.close fd)).step _ rfl rfl fun _ _ _ => trivial
  | openFile name next ih =>
    exact (ih _ (w.openFile sys name).2).step _ rfl (World.openFile_world sys w name).2
      fun _ _ _ => trivial
  | pipe start pair next ih =>
    exact (ih _ _ (w.pipe sys start pair).2.2).step _ rfl (World.pipe_world sys w start pair).2
      fun _ _ _ => trivial
  | fork name next ih =>
    cases hforks : sys.forks name with
    | none =>
      exact (ih _ (w.log (.fork name (-1)))).step _ (forks_none hforks w) rfl fun _ _ _ => trivial
    | some pid =>
      exact .fork hforks (fun w' _ => ih 0 w') (fun w' _ => ih pid w') fun _ _ _ _ _ _ => trivial
  | waitpid pid next ih => exact (ih (w.log (.waitpid pid))).step _ rfl rfl fun _ _ _ => trivial
  | reap pid next ih => exact (ih (w.log (.reap pid))).step _ rfl rfl fun _ _ _ => trivial
  | call routine next ih =>
    exact .call (fun status _ _ => ih status _) (fun _ _ _ => trivial) fun _ _ _ => trivial

/-- A child's run adds events of children. -/
theorem children (p : Prog ν κ α) (hw : w.process ≠ none) :
    Extends sys p w fun tr _ => ∀ e ∈ tr, e.process ≠ none := by
  have hcons : ∀ {w : World ν κ σ} {event : Event ν κ} tr, w.process ≠ none →
      (∀ e ∈ tr, e.process ≠ none) →
      ∀ e ∈ (⟨w.process, w.files.fds, event⟩ : Entry ν κ) :: tr, e.process ≠ none :=
    fun tr hw htr => List.forall_mem_cons.mpr ⟨hw, htr⟩
  have hnil : ∀ e ∈ ([] : List (Entry ν κ)), e.process ≠ none :=
    fun e he => absurd he List.not_mem_nil
  induction p generalizing w with
  | ret a => exact .stop rfl hnil
  | crash => exact .stop rfl hnil
  | exit status => exact .last .exited rfl (hcons [] hw hnil)
  | dup fd next ih =>
    obtain ⟨hprocess, htrace⟩ := World.dup_world sys w fd
    exact (ih _ (hprocess.trans_ne hw)).step _ rfl htrace fun tr _ => hcons tr hw
  | dup2 old new next ih =>
    have hnext : (w.dup2 old new).process ≠ none := hw
    exact (ih hnext).step _ rfl rfl fun tr _ => hcons tr hw
  | close fd next ih =>
    have hnext : (w.close fd).process ≠ none := hw
    exact (ih hnext).step _ rfl rfl fun tr _ => hcons tr hw
  | openFile name next ih =>
    obtain ⟨hprocess, htrace⟩ := World.openFile_world sys w name
    exact (ih _ (hprocess.trans_ne hw)).step _ rfl htrace fun tr _ => hcons tr hw
  | pipe start pair next ih =>
    obtain ⟨hprocess, htrace⟩ := World.pipe_world sys w start pair
    exact (ih _ _ (hprocess.trans_ne hw)).step _ rfl htrace fun tr _ => hcons tr hw
  | fork name next ih =>
    cases hforks : sys.forks name with
    | none =>
      have hnext : (w.log (.fork name (-1))).process ≠ none := hw
      exact (ih _ hnext).step _ (forks_none hforks w) rfl fun tr _ => hcons tr hw
    | some pid =>
      refine .fork hforks (fun w' hw' => ih 0 (by rw [hw']; exact Option.some_ne_none name))
        (fun w' hw' => ih pid (hw'.trans_ne hw)) ?_
      intro tr tr' _ _ htr htr'
      exact hcons _ hw fun e he => (List.mem_append.mp he).elim (htr e) (htr' e)
  | waitpid pid next ih =>
    have hnext : (w.log (.waitpid pid)).process ≠ none := hw
    exact (ih hnext).step _ rfl rfl fun tr _ => hcons tr hw
  | reap pid next ih =>
    have hnext : (w.log (.reap pid)).process ≠ none := hw
    exact (ih hnext).step _ rfl rfl fun tr _ => hcons tr hw
  | call routine next ih =>
    refine .call (fun status memory _ => ih status ?_) (fun tr _ => hcons tr hw)
      fun _ _ _ => hcons [] hw hnil
    exact hw

/-- Two facts about the events of one run. -/
theorem and (h : Extends sys p w P) (h' : Extends sys p w P') :
    Extends sys p w fun tr ending => P tr ending ∧ P' tr ending := by
  obtain ⟨tr, hfinal, hpost⟩ := h
  obtain ⟨tr', hfinal', hpost'⟩ := h'
  rw [← List.append_cancel_left (hfinal.symm.trans hfinal')] at hpost'
  exact ⟨tr, hfinal, hpost, hpost'⟩

/-- What a condition on something else than the run adds. -/
theorem imp {C : Prop} (h : C → Extends sys p w P) :
    Extends sys p w fun tr ending => C → P tr ending := by
  obtain ⟨tr, hfinal, _⟩ := trace sys p w
  refine ⟨tr, hfinal, fun hC => ?_⟩
  obtain ⟨tr', hfinal', hpost⟩ := h hC
  rwa [List.append_cancel_left (hfinal.symm.trans hfinal')]

end Extends

/-- Every event of a program is allowed, whatever numbers its calls return, and what is known when
it returns satisfies a postcondition; a child never returns. -/
def Keeps (sys : System ν κ σ) (o : Observer M ν κ) :
    Prog ν κ α → M → (α → M → Prop) → Prop
  | .ret a, m, Q => Q a m
  | .crash, _, _ => True
  | .exit status, m, _ => o.allows m (.exit status)
  | .dup fd next, m, Q => ∀ r, o.allows m (.dup fd r) ∧
      Keeps sys o (next r) (o.learns m (.dup fd r)) Q
  | .dup2 old new next, m, Q => o.allows m (.dup2 old new) ∧
      Keeps sys o next (o.learns m (.dup2 old new)) Q
  | .close fd next, m, Q => o.allows m (.close fd) ∧
      Keeps sys o next (o.learns m (.close fd)) Q
  | .openFile name next, m, Q => ∀ r, (r = -1 ↔ sys.opens name = false) →
      o.allows m (.openFile name r) ∧ Keeps sys o (next r) (o.learns m (.openFile name r)) Q
  | .pipe start pair next, m, Q => ∀ r s, (r = -1 ↔ sys.pipes start pair = false) →
      o.allows m (.pipe r s) ∧ Keeps sys o (next r s) (o.learns m (.pipe r s)) Q
  | .fork name next, m, Q =>
    match sys.forks name with
    | none => o.allows m (.fork name (-1)) ∧
        Keeps sys o (next (-1)) (o.learns m (.fork name (-1))) Q
    | some pid => o.allows m (.fork name pid) ∧
        Keeps sys (o.child (o.learns m (.fork name pid))) (next 0)
          (o.learns m (.fork name pid)) (fun _ _ => False) ∧
        Keeps sys o (next pid) (o.learns m (.fork name pid)) Q
  | .waitpid pid next, m, Q => o.allows m (.waitpid pid) ∧
      Keeps sys o next (o.learns m (.waitpid pid)) Q
  | .reap pid next, m, Q => o.allows m (.reap pid) ∧
      Keeps sys o next (o.learns m (.reap pid)) Q
  | .call routine next, m, Q => o.allows m (.call routine) ∧
      ∀ status, Keeps sys o (next status) (o.learns m (.call routine)) Q

namespace Keeps

theorem mono (h : Keeps sys o p m Q) (hQ : ∀ a m, Q a m → Q' a m) : Keeps sys o p m Q' := by
  induction p generalizing o m with
  | ret a => exact hQ a m h
  | crash => trivial
  | exit status => exact h
  | dup fd next ih => exact fun r => ⟨(h r).1, ih r (h r).2⟩
  | dup2 old new next ih => exact ⟨h.1, ih h.2⟩
  | close fd next ih => exact ⟨h.1, ih h.2⟩
  | openFile name next ih => exact fun r hr => ⟨(h r hr).1, ih r (h r hr).2⟩
  | pipe start pair next ih => exact fun r s hr => ⟨(h r s hr).1, ih r s (h r s hr).2⟩
  | fork name next ih =>
    rw [Keeps] at h ⊢
    cases hf : sys.forks name with
    | none =>
      rw [hf] at h
      exact ⟨h.1, ih _ h.2⟩
    | some pid =>
      rw [hf] at h
      exact ⟨h.1, h.2.1, ih _ h.2.2⟩
  | waitpid pid next ih => exact ⟨h.1, ih h.2⟩
  | reap pid next ih => exact ⟨h.1, ih h.2⟩
  | call routine next ih => exact ⟨h.1, fun status => ih status (h.2 status)⟩

theorem of_rest (h : Keeps sys o p m fun a m => Keeps sys o (k a) m R) :
    Keeps sys o (p.bind k) m R := by
  induction p generalizing o m R with
  | ret a => exact h
  | crash => trivial
  | exit status => exact h
  | dup fd next ih => exact fun r => ⟨(h r).1, ih r (h r).2⟩
  | dup2 old new next ih => exact ⟨h.1, ih h.2⟩
  | close fd next ih => exact ⟨h.1, ih h.2⟩
  | openFile name next ih => exact fun r hr => ⟨(h r hr).1, ih r (h r hr).2⟩
  | pipe start pair next ih => exact fun r s hr => ⟨(h r s hr).1, ih r s (h r s hr).2⟩
  | fork name next ih =>
    rw [Prog.bind]
    rw [Keeps] at h ⊢
    cases hf : sys.forks name with
    | none =>
      rw [hf] at h
      exact ⟨h.1, ih _ h.2⟩
    | some pid =>
      rw [hf] at h
      exact ⟨h.1, ih _ (h.2.1.mono fun _ _ => False.elim), ih _ h.2.2⟩
  | waitpid pid next ih => exact ⟨h.1, ih h.2⟩
  | reap pid next ih => exact ⟨h.1, ih h.2⟩
  | call routine next ih => exact ⟨h.1, fun status => ih status (h.2 status)⟩

/-- What the first part tells is known to the second one. -/
theorem bind (h : Keeps sys o p m Q) (hk : ∀ a m, Q a m → Keeps sys o (k a) m R) :
    Keeps sys o (p >>= k) m R := of_rest (h.mono hk)

theorem fork {name : Nat} {next : Int → Prog ν κ α}
    (hnone : sys.forks name = none → o.allows m (.fork name (-1)) ∧
      Keeps sys o (next (-1)) (o.learns m (.fork name (-1))) Q)
    (hsome : ∀ pid : ℕ+, sys.forks name = some pid → o.allows m (.fork name pid) ∧
      Keeps sys (o.child (o.learns m (.fork name pid))) (next 0) (o.learns m (.fork name pid))
        (fun _ _ => False) ∧
      Keeps sys o (next pid) (o.learns m (.fork name pid)) Q) :
    Keeps sys o (.fork name next) m Q := by
  rw [Keeps]
  cases hforks : sys.forks name with
  | none => exact hnone hforks
  | some pid => exact hsome pid hforks

/-- A child's events. -/
theorem child (h : Keeps sys (o.child m) p m' Q) (hw : w.process ≠ none) :
    Extends sys p w fun tr _ => ∀ e ∈ tr, e.process ≠ none ∧ o.allowsChild m e.event := by
  have hnil : ∀ e ∈ ([] : List (Entry ν κ)), e.process ≠ none ∧ o.allowsChild m e.event :=
    fun e he => absurd he List.not_mem_nil
  have hcons : ∀ {w : World ν κ σ} {event} tr, w.process ≠ none → o.allowsChild m event →
      (∀ e ∈ tr, e.process ≠ none ∧ o.allowsChild m e.event) →
      ∀ e ∈ (⟨w.process, w.files.fds, event⟩ : Entry ν κ) :: tr,
        e.process ≠ none ∧ o.allowsChild m e.event := by
    intro w event tr hw hevent htr e he
    rcases List.mem_cons.mp he with rfl | he
    · exact ⟨hw, hevent⟩
    · exact htr e he
  induction p generalizing m' w Q with
  | ret a => exact .stop rfl hnil
  | crash => exact .stop rfl hnil
  | exit status => exact .last .exited rfl (hcons [] hw h hnil)
  | dup fd next ih =>
    have hnext : (w.dup sys fd).2.process ≠ none := (World.dup_world sys w fd).1 ▸ hw
    exact (ih _ (h _).2 hnext).step _ rfl (World.dup_world sys w fd).2
      fun tr _ => hcons tr hw (h _).1
  | dup2 old new next ih =>
    have hnext : (w.dup2 old new).process ≠ none := hw
    exact (ih h.2 hnext).step _ rfl rfl fun tr _ => hcons tr hw h.1
  | close fd next ih =>
    have hnext : (w.close fd).process ≠ none := hw
    exact (ih h.2 hnext).step _ rfl rfl fun tr _ => hcons tr hw h.1
  | openFile name next ih =>
    have hresult := h _ (World.openFile_fails_iff sys w name)
    have hnext : (w.openFile sys name).2.process ≠ none := (World.openFile_world sys w name).1 ▸ hw
    exact (ih _ hresult.2 hnext).step _ rfl (World.openFile_world sys w name).2
      fun tr _ => hcons tr hw hresult.1
  | pipe start pair next ih =>
    have hresult := h _ (w.pipe sys start pair).2.1 (World.pipe_fails_iff sys w start pair)
    have hnext : (w.pipe sys start pair).2.2.process ≠ none :=
      (World.pipe_world sys w start pair).1 ▸ hw
    exact (ih _ _ hresult.2 hnext).step _ rfl (World.pipe_world sys w start pair).2
      fun tr _ => hcons tr hw hresult.1
  | fork name next ih =>
    rw [Keeps] at h
    cases hforks : sys.forks name with
    | none =>
      rw [hforks] at h
      have hnext : (w.log (.fork name (-1))).process ≠ none := hw
      exact (ih _ h.2 hnext).step _ (Extends.forks_none hforks w) rfl fun tr _ => hcons tr hw h.1
    | some pid =>
      rw [hforks] at h
      refine .fork hforks (fun w' hw' => ih 0 h.2.1 (by rw [hw']; exact Option.some_ne_none name))
        (fun w' hw' => ih pid h.2.2 (hw' ▸ hw)) ?_
      intro tr tr' _ _ htr htr'
      refine hcons _ hw h.1 fun e he => ?_
      exact (List.mem_append.mp he).elim (htr e) (htr' e)
  | waitpid pid next ih =>
    have hnext : (w.log (.waitpid pid)).process ≠ none := hw
    exact (ih h.2 hnext).step _ rfl rfl fun tr _ => hcons tr hw h.1
  | reap pid next ih =>
    have hnext : (w.log (.reap pid)).process ≠ none := hw
    exact (ih h.2 hnext).step _ rfl rfl fun tr _ => hcons tr hw h.1
  | call routine next ih =>
    refine .call (fun status _ _ => ih status (h.2 status) ?_) (fun tr _ => hcons tr hw h.1)
      fun _ _ _ => hcons [] hw h.1 hnil
    exact hw

/-- Every event of a run is allowed with what is known before it. -/
theorem run (h : Keeps sys o p m Q) (hw : w.process = none) :
    Extends sys p w fun tr ending => o.Accepts m tr ∧
      ∀ a, ending = .returned a → Q a (o.after m tr) := by
  have hcons : ∀ {w : World ν κ σ} {event} {m : M} {Q : α → M → Prop} tr (ending : Ending α),
      w.process = none →
      o.allows m event →
      (o.Accepts (o.learns m event) tr ∧
        ∀ a, ending = .returned a → Q a (o.after (o.learns m event) tr)) →
      o.Accepts m ((⟨w.process, w.files.fds, event⟩ : Entry ν κ) :: tr) ∧
        ∀ a, ending = .returned a →
          Q a (o.after m ((⟨w.process, w.files.fds, event⟩ : Entry ν κ) :: tr)) := by
    intro w event m Q tr ending hw hallowed htr
    rw [Observer.Accepts, Observer.after, hw]
    exact ⟨⟨hallowed, htr.1⟩, htr.2⟩
  induction p generalizing m w Q with
  | ret a =>
    refine .stop rfl ⟨trivial, ?_⟩
    rintro _ ⟨⟩
    exact h
  | crash => exact .stop rfl ⟨trivial, fun a ha => by cases ha⟩
  | exit status =>
    exact .last .exited rfl (hcons [] _ hw h ⟨trivial, fun a ha => by cases ha⟩)
  | dup fd next ih =>
    have hnext : (w.dup sys fd).2.process = none := (World.dup_world sys w fd).1.trans hw
    exact (ih _ (h _).2 hnext).step _ rfl (World.dup_world sys w fd).2
      fun tr _ => hcons tr _ hw (h _).1
  | dup2 old new next ih =>
    have hnext : (w.dup2 old new).process = none := hw
    exact (ih h.2 hnext).step _ rfl rfl fun tr _ => hcons tr _ hw h.1
  | close fd next ih =>
    have hnext : (w.close fd).process = none := hw
    exact (ih h.2 hnext).step _ rfl rfl fun tr _ => hcons tr _ hw h.1
  | openFile name next ih =>
    have hresult := h _ (World.openFile_fails_iff sys w name)
    have hnext : (w.openFile sys name).2.process = none :=
      (World.openFile_world sys w name).1.trans hw
    exact (ih _ hresult.2 hnext).step _ rfl (World.openFile_world sys w name).2
      fun tr _ => hcons tr _ hw hresult.1
  | pipe start pair next ih =>
    have hresult := h _ (w.pipe sys start pair).2.1 (World.pipe_fails_iff sys w start pair)
    have hnext : (w.pipe sys start pair).2.2.process = none :=
      (World.pipe_world sys w start pair).1.trans hw
    exact (ih _ _ hresult.2 hnext).step _ rfl (World.pipe_world sys w start pair).2
      fun tr _ => hcons tr _ hw hresult.1
  | fork name next ih =>
    rw [Keeps] at h
    cases hforks : sys.forks name with
    | none =>
      rw [hforks] at h
      have hnext : (w.log (.fork name (-1))).process = none := hw
      exact (ih _ h.2 hnext).step _ (Extends.forks_none hforks w) rfl fun tr _ => hcons tr _ hw h.1
    | some pid =>
      rw [hforks] at h
      refine .fork hforks (fun w' hw' => h.2.1.child (by rw [hw']; exact Option.some_ne_none name))
        (fun w' hw' => ih pid h.2.2 (hw'.trans hw)) ?_
      intro tr tr' ending _ htr htr'
      refine hcons _ ending hw h.1 ⟨?_, ?_⟩
      · rw [Observer.accepts_append, Observer.after_children fun e he => (htr e he).1]
        exact ⟨(Observer.accepts_children fun e he => (htr e he).1).mpr fun e he => (htr e he).2,
          htr'.1⟩
      · rw [Observer.after_append, Observer.after_children fun e he => (htr e he).1]
        exact htr'.2
  | waitpid pid next ih =>
    have hnext : (w.log (.waitpid pid)).process = none := hw
    exact (ih h.2 hnext).step _ rfl rfl fun tr _ => hcons tr _ hw h.1
  | reap pid next ih =>
    have hnext : (w.log (.reap pid)).process = none := hw
    exact (ih h.2 hnext).step _ rfl rfl fun tr _ => hcons tr _ hw h.1
  | call routine next ih =>
    refine .call (fun status _ _ => ih status (h.2 status) hw) (fun tr _ => hcons tr _ hw h.1)
      fun _ ending hending => hcons [] ending hw h.1 ⟨trivial, fun a ha => absurd ha (hending a)⟩

end Keeps

end Redshell
