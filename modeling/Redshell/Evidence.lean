import Redshell.Observer

/-! What follows from a run whose events are all allowed. -/
namespace Redshell

variable {M ν κ σ α β : Type} {o : Observer M ν κ} {sys : System ν κ σ} {m m' : M}
  {p : Prog ν κ α} {k : α → Prog ν κ β} {Q Q' : α → M → Prop} {R : β → M → Prop} {C E : Prop}
  {w : World ν κ σ} {tr : List (Entry ν κ)} {e : Entry ν κ}

/-- If every event of a program is allowed, what is known when it returns satisfies a
postcondition, and a condition holds when it ends without returning; a child runs before its
parent goes on. -/
def Tells (sys : System ν κ σ) (o : Observer M ν κ) :
    Prog ν κ α → M → (α → M → Prop) → Prop → Prop
  | .ret a, m, Q, _ => Q a m
  | .crash, _, _, E => E
  | .exit status, m, _, E => o.allows m (.exit status) → E
  | .dup fd next, m, Q, E => ∀ r, o.allows m (.dup fd r) →
      Tells sys o (next r) (o.learns m (.dup fd r)) Q E
  | .dup2 old new next, m, Q, E => o.allows m (.dup2 old new) →
      Tells sys o next (o.learns m (.dup2 old new)) Q E
  | .close fd next, m, Q, E => o.allows m (.close fd) →
      Tells sys o next (o.learns m (.close fd)) Q E
  | .openFile name next, m, Q, E => ∀ r, (r = -1 ↔ sys.opens name = false) →
      o.allows m (.openFile name r) → Tells sys o (next r) (o.learns m (.openFile name r)) Q E
  | .pipe start pair next, m, Q, E => ∀ r s, (r = -1 ↔ sys.pipes start pair = false) →
      o.allows m (.pipe r s) → Tells sys o (next r s) (o.learns m (.pipe r s)) Q E
  | .fork name next, m, Q, E =>
    match sys.forks name with
    | none => o.allows m (.fork name (-1)) →
        Tells sys o (next (-1)) (o.learns m (.fork name (-1))) Q E
    | some pid => o.allows m (.fork name pid) →
        Tells sys (o.child (o.learns m (.fork name pid))) (next 0) (o.learns m (.fork name pid))
          (fun _ _ => Tells sys o (next pid) (o.learns m (.fork name pid)) Q E)
          (Tells sys o (next pid) (o.learns m (.fork name pid)) Q E)
  | .waitpid pid next, m, Q, E => o.allows m (.waitpid pid) →
      Tells sys o next (o.learns m (.waitpid pid)) Q E
  | .reap pid next, m, Q, E => o.allows m (.reap pid) →
      Tells sys o next (o.learns m (.reap pid)) Q E
  | .call routine next, m, Q, E => o.allows m (.call routine) → ∀ memory,
      match sys.perform routine memory with
      | .returned status _ => Tells sys o (next status) (o.learns m (.call routine)) Q E
      | _ => E

namespace Tells

theorem mono (h : Tells sys o p m Q E) (hQ : ∀ a m, Q a m → Q' a m) (hE : E → C) :
    Tells sys o p m Q' C := by
  induction p generalizing o m Q Q' E C with
  | ret a => exact hQ a m h
  | crash => exact hE h
  | exit status => exact fun hallowed => hE (h hallowed)
  | dup fd next ih => exact fun r hallowed => ih r (h r hallowed) hQ hE
  | dup2 old new next ih => exact fun hallowed => ih (h hallowed) hQ hE
  | close fd next ih => exact fun hallowed => ih (h hallowed) hQ hE
  | openFile name next ih => exact fun r hr hallowed => ih r (h r hr hallowed) hQ hE
  | pipe start pair next ih => exact fun r s hr hallowed => ih r s (h r s hr hallowed) hQ hE
  | fork name next ih =>
    rw [Tells] at h ⊢
    cases hforks : sys.forks name with
    | none =>
      rw [hforks] at h
      exact fun hallowed => ih _ (h hallowed) hQ hE
    | some pid =>
      rw [hforks] at h
      exact fun hallowed => ih 0 (h hallowed) (fun _ _ hparent => ih pid hparent hQ hE)
        fun hparent => ih pid hparent hQ hE
  | waitpid pid next ih => exact fun hallowed => ih (h hallowed) hQ hE
  | reap pid next ih => exact fun hallowed => ih (h hallowed) hQ hE
  | call routine next ih =>
    intro hallowed memory
    have hcall := h hallowed memory
    revert hcall
    cases sys.perform routine memory with
    | returned status memory => exact fun hcall => ih status hcall hQ hE
    | exited => exact hE
    | replaced => exact hE
    | crashed => exact hE

/-- A condition that holds anyway. -/
theorem of_holds (p : Prog ν κ α) (h : C) : Tells sys o p m (fun _ _ => C) C := by
  induction p generalizing o m C with
  | ret a => exact h
  | crash => exact h
  | exit status => exact fun _ => h
  | dup fd next ih => exact fun r _ => ih r h
  | dup2 old new next ih => exact fun _ => ih h
  | close fd next ih => exact fun _ => ih h
  | openFile name next ih => exact fun r _ _ => ih r h
  | pipe start pair next ih => exact fun r s _ _ => ih r s h
  | fork name next ih =>
    rw [Tells]
    cases sys.forks name with
    | none => exact fun _ => ih _ h
    | some pid => exact fun _ => ih 0 (ih pid h)
  | waitpid pid next ih => exact fun _ => ih h
  | reap pid next ih => exact fun _ => ih h
  | call routine next ih =>
    intro _ memory
    cases sys.perform routine memory with
    | returned status memory => exact ih status h
    | exited => exact h
    | replaced => exact h
    | crashed => exact h

theorem of_rest (h : Tells sys o p m (fun a m => Tells sys o (k a) m R E) E) :
    Tells sys o (p.bind k) m R E := by
  induction p generalizing o m R E with
  | ret a => exact h
  | crash => exact h
  | exit status => exact h
  | dup fd next ih => exact fun r hallowed => ih r (h r hallowed)
  | dup2 old new next ih => exact fun hallowed => ih (h hallowed)
  | close fd next ih => exact fun hallowed => ih (h hallowed)
  | openFile name next ih => exact fun r hr hallowed => ih r (h r hr hallowed)
  | pipe start pair next ih => exact fun r s hr hallowed => ih r s (h r s hr hallowed)
  | fork name next ih =>
    rw [Prog.bind]
    rw [Tells] at h ⊢
    cases hforks : sys.forks name with
    | none =>
      rw [hforks] at h
      exact fun hallowed => ih _ (h hallowed)
    | some pid =>
      rw [hforks] at h
      -- What the child's part of the program tells is not undone by the rest of it.
      exact fun hallowed => ih 0 ((h hallowed).mono
        (fun a _ hparent => of_holds (k a) (ih pid hparent)) (ih pid))
  | waitpid pid next ih => exact fun hallowed => ih (h hallowed)
  | reap pid next ih => exact fun hallowed => ih (h hallowed)
  | call routine next ih =>
    intro hallowed memory
    have hcall := h hallowed memory
    revert hcall
    cases sys.perform routine memory with
    | returned status memory => exact fun hcall => ih status hcall
    | exited => exact id
    | replaced => exact id
    | crashed => exact id

/-- What the first part tells is known to the second one. -/
theorem bind (h : Tells sys o p m Q E) (hk : ∀ a m, Q a m → Tells sys o (k a) m R E) :
    Tells sys o (p >>= k) m R E := of_rest (h.mono hk id)

theorem fork {name : Nat} {next : Int → Prog ν κ α}
    (hnone : sys.forks name = none → o.allows m (.fork name (-1)) →
      Tells sys o (next (-1)) (o.learns m (.fork name (-1))) Q E)
    (hsome : ∀ pid : ℕ+, sys.forks name = some pid → o.allows m (.fork name pid) →
      Tells sys (o.child (o.learns m (.fork name pid))) (next 0) (o.learns m (.fork name pid))
        (fun _ _ => Tells sys o (next pid) (o.learns m (.fork name pid)) Q E)
        (Tells sys o (next pid) (o.learns m (.fork name pid)) Q E)) :
    Tells sys o (.fork name next) m Q E := by
  rw [Tells]
  cases hforks : sys.forks name with
  | none => exact hnone hforks
  | some pid => exact hsome pid hforks

/-- A routine that returns whatever it is called on. -/
theorem call {routine : κ} {next : Int → Prog ν κ α}
    (hreturns : ∀ memory, ∃ status memory', sys.perform routine memory = .returned status memory')
    (h : o.allows m (.call routine) →
      ∀ status, Tells sys o (next status) (o.learns m (.call routine)) Q E) :
    Tells sys o (.call routine next) m Q E := by
  intro hallowed memory
  obtain ⟨status, memory', hperform⟩ := hreturns memory
  rw [hperform]
  exact h hallowed status

/-- What the events of a child tell. -/
theorem child (h : Tells sys (o.child m) p m' (fun _ _ => C) C) (hw : w.process ≠ none) :
    Extends sys p w fun tr _ => (∀ e ∈ tr, o.allowsChild m e.event) → C := by
  have hcons : ∀ {w : World ν κ σ} {event : Event ν κ} {C : Prop} tr,
      (o.allowsChild m event → (∀ e ∈ tr, o.allowsChild m e.event) → C) →
      (∀ e ∈ (⟨w.process, w.files.fds, event⟩ : Entry ν κ) :: tr, o.allowsChild m e.event) →
      C := by
    intro w event C tr htr hall
    rw [List.forall_mem_cons] at hall
    exact htr hall.1 hall.2
  induction p generalizing m' w C with
  | ret a => exact .stop rfl fun _ => h
  | crash => exact .stop rfl fun _ => h
  | exit status => exact .last .exited rfl (hcons [] fun hallowed _ => h hallowed)
  | dup fd next ih =>
    obtain ⟨hprocess, htrace⟩ := World.dup_world sys w fd
    exact (Extends.imp fun hallowed => ih _ (h _ hallowed) (hprocess.trans_ne hw)).step _ rfl
      htrace fun tr _ => hcons tr
  | dup2 old new next ih =>
    have hnext : (w.dup2 old new).process ≠ none := hw
    exact (Extends.imp fun hallowed => ih (h hallowed) hnext).step _ rfl rfl fun tr _ => hcons tr
  | close fd next ih =>
    have hnext : (w.close fd).process ≠ none := hw
    exact (Extends.imp fun hallowed => ih (h hallowed) hnext).step _ rfl rfl fun tr _ => hcons tr
  | openFile name next ih =>
    obtain ⟨hprocess, htrace⟩ := World.openFile_world sys w name
    exact (Extends.imp fun hallowed => ih _ (h _ (World.openFile_fails_iff sys w name) hallowed)
      (hprocess.trans_ne hw)).step _ rfl htrace fun tr _ => hcons tr
  | pipe start pair next ih =>
    obtain ⟨hprocess, htrace⟩ := World.pipe_world sys w start pair
    exact (Extends.imp fun hallowed => ih _ _ (h _ _ (World.pipe_fails_iff sys w start pair)
      hallowed) (hprocess.trans_ne hw)).step _ rfl htrace fun tr _ => hcons tr
  | fork name next ih =>
    rw [Tells] at h
    cases hforks : sys.forks name with
    | none =>
      rw [hforks] at h
      have hnext : (w.log (.fork name (-1))).process ≠ none := hw
      exact (Extends.imp fun hallowed => ih _ (h hallowed) hnext).step _
        (Extends.forks_none hforks w) rfl fun tr _ => hcons tr
    | some pid =>
      rw [hforks] at h
      have hchild : ∀ w' : World ν κ σ, w'.process = some name → w'.process ≠ none :=
        fun w' hw' => hw'.trans_ne (Option.some_ne_none name)
      have hparent : ∀ w' : World ν κ σ, w'.process = w.process → Extends sys (next pid) w'
          fun tr _ => Tells sys (o.child m) (next pid) m' (fun _ _ => C) C →
            (∀ e ∈ tr, o.allowsChild m e.event) → C :=
        fun w' hw' => .imp fun hparent => ih pid hparent (hw'.trans_ne hw)
      refine .fork hforks (fun w' hw' => .imp fun hallowed => ih 0 (h hallowed) (hchild w' hw'))
        hparent ?_
      intro tr tr' _ _ htr htr'
      refine hcons _ fun hallowed hall => ?_
      rw [List.forall_mem_append] at hall
      exact htr' (htr hallowed hall.1) hall.2
  | waitpid pid next ih =>
    have hnext : (w.log (.waitpid pid)).process ≠ none := hw
    exact (Extends.imp fun hallowed => ih (h hallowed) hnext).step _ rfl rfl fun tr _ => hcons tr
  | reap pid next ih =>
    have hnext : (w.log (.reap pid)).process ≠ none := hw
    exact (Extends.imp fun hallowed => ih (h hallowed) hnext).step _ rfl rfl fun tr _ => hcons tr
  | call routine next ih =>
    refine .call (fun status memory hperform => .imp fun hallowed => ?_)
      (fun tr _ => hcons tr) fun hperform _ _ => hcons [] fun hallowed _ => ?_
    · have hcall := h hallowed w.memory
      rw [hperform] at hcall
      exact ih status hcall hw
    · have hcall := h hallowed w.memory
      revert hcall
      cases hends : sys.perform routine w.memory with
      | returned status memory => exact absurd hends (hperform status memory)
      | exited => exact id
      | replaced => exact id
      | crashed => exact id

/-- A run whose events are all allowed is as the program tells. -/
theorem run (h : Tells sys o p m Q E) (hw : w.process = none) :
    Extends sys p w fun tr ending => o.Accepts m tr →
      (∀ a, ending = .returned a → Q a (o.after m tr)) ∧
        ((∀ a, ending ≠ .returned a) → E) := by
  have hcons : ∀ {w : World ν κ σ} {event : Event ν κ} {m : M} {Q : α → M → Prop} {E : Prop}
      tr (ending : Ending α), w.process = none →
      (o.allows m event → o.Accepts (o.learns m event) tr →
        (∀ a, ending = .returned a → Q a (o.after (o.learns m event) tr)) ∧
          ((∀ a, ending ≠ .returned a) → E)) →
      o.Accepts m ((⟨w.process, w.files.fds, event⟩ : Entry ν κ) :: tr) →
      (∀ a, ending = .returned a →
          Q a (o.after m ((⟨w.process, w.files.fds, event⟩ : Entry ν κ) :: tr))) ∧
        ((∀ a, ending ≠ .returned a) → E) := by
    intro w event m Q E tr ending hw htr haccepts
    rw [Observer.Accepts, hw] at haccepts
    rw [Observer.after, hw]
    exact htr haccepts.1 haccepts.2
  have hended : ∀ {ending : Ending α} {m : M} {Q : α → M → Prop} {E : Prop}, E →
      (∀ a, ending ≠ .returned a) →
      (∀ a, ending = .returned a → Q a m) ∧ ((∀ a, ending ≠ .returned a) → E) :=
    fun hE hne => ⟨fun a ha => absurd ha (hne a), fun _ => hE⟩
  induction p generalizing m w Q E with
  | ret a =>
    refine .stop rfl fun _ => ⟨?_, fun hne => absurd rfl (hne a)⟩
    rintro _ ⟨⟩
    exact h
  | crash => exact .stop rfl fun _ => hended h fun a ha => by cases ha
  | exit status =>
    exact .last .exited rfl (hcons [] _ hw fun hallowed _ =>
      hended (h hallowed) fun a ha => by cases ha)
  | dup fd next ih =>
    obtain ⟨hprocess, htrace⟩ := World.dup_world sys w fd
    exact (Extends.imp fun hallowed => ih _ (h _ hallowed) (hprocess.trans hw)).step _ rfl
      htrace fun tr _ => hcons tr _ hw
  | dup2 old new next ih =>
    have hnext : (w.dup2 old new).process = none := hw
    exact (Extends.imp fun hallowed => ih (h hallowed) hnext).step _ rfl rfl
      fun tr _ => hcons tr _ hw
  | close fd next ih =>
    have hnext : (w.close fd).process = none := hw
    exact (Extends.imp fun hallowed => ih (h hallowed) hnext).step _ rfl rfl
      fun tr _ => hcons tr _ hw
  | openFile name next ih =>
    obtain ⟨hprocess, htrace⟩ := World.openFile_world sys w name
    exact (Extends.imp fun hallowed => ih _ (h _ (World.openFile_fails_iff sys w name) hallowed)
      (hprocess.trans hw)).step _ rfl htrace fun tr _ => hcons tr _ hw
  | pipe start pair next ih =>
    obtain ⟨hprocess, htrace⟩ := World.pipe_world sys w start pair
    exact (Extends.imp fun hallowed => ih _ _ (h _ _ (World.pipe_fails_iff sys w start pair)
      hallowed) (hprocess.trans hw)).step _ rfl htrace fun tr _ => hcons tr _ hw
  | fork name next ih =>
    rw [Tells] at h
    cases hforks : sys.forks name with
    | none =>
      rw [hforks] at h
      have hnext : (w.log (.fork name (-1))).process = none := hw
      exact (Extends.imp fun hallowed => ih _ (h hallowed) hnext).step _
        (Extends.forks_none hforks w) rfl fun tr _ => hcons tr _ hw
    | some pid =>
      rw [hforks] at h
      have hchild : ∀ w' : World ν κ σ, w'.process = some name → w'.process ≠ none :=
        fun w' hw' => hw'.trans_ne (Option.some_ne_none name)
      have hparent : ∀ w' : World ν κ σ, w'.process = w.process → Extends sys (next pid) w'
          fun tr ending => Tells sys o (next pid) (o.learns m (.fork name pid)) Q E →
            o.Accepts (o.learns m (.fork name pid)) tr →
            (∀ a, ending = .returned a → Q a (o.after (o.learns m (.fork name pid)) tr)) ∧
              ((∀ a, ending ≠ .returned a) → E) :=
        fun w' hw' => .imp fun hparent => ih pid hparent (hw'.trans hw)
      refine .fork hforks (fun w' hw' => (Extends.children _ (hchild w' hw')).and
        (.imp fun hallowed => (h hallowed).child (hchild w' hw'))) hparent ?_
      intro tr tr' ending _ htr htr'
      refine hcons _ ending hw fun hallowed haccepts => ?_
      have hafter : o.after (o.learns m (.fork name pid)) tr = o.learns m (.fork name pid) :=
        Observer.after_children htr.1
      rw [Observer.accepts_append, hafter, Observer.accepts_children htr.1] at haccepts
      rw [Observer.after_append, hafter]
      exact htr' (htr.2 hallowed haccepts.1) haccepts.2
  | waitpid pid next ih =>
    have hnext : (w.log (.waitpid pid)).process = none := hw
    exact (Extends.imp fun hallowed => ih (h hallowed) hnext).step _ rfl rfl
      fun tr _ => hcons tr _ hw
  | reap pid next ih =>
    have hnext : (w.log (.reap pid)).process = none := hw
    exact (Extends.imp fun hallowed => ih (h hallowed) hnext).step _ rfl rfl
      fun tr _ => hcons tr _ hw
  | call routine next ih =>
    refine .call (fun status memory hperform => .imp fun hallowed => ?_)
      (fun tr _ => hcons tr _ hw) fun hperform ending hne => hcons [] ending hw fun hallowed _ => ?_
    · have hcall := h hallowed w.memory
      rw [hperform] at hcall
      exact ih status hcall hw
    · refine hended ?_ hne
      have hcall := h hallowed w.memory
      revert hcall
      cases hends : sys.perform routine w.memory with
      | returned status memory => exact absurd hends (hperform status memory)
      | exited => exact id
      | replaced => exact id
      | crashed => exact id

end Tells

end Redshell
