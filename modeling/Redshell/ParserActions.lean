import Redshell.Owned

/-! The actions that a parse runs, one after the other: what each of them finds and leaves. -/
namespace Redshell

/-- One action of a run: its code, whether `new` was run before it, the machine it is run in, and
what becomes of that. -/
structure ActionRun where
  code : Nat
  afterNew : Bool
  before : Machine
  result : Except Fault (Machine × Bool)

namespace Machine

/-- The actions of a transition, as far as they are run. -/
def actionRuns (wordexp : Wordexp) (c : UInt8) : Bool → List Nat → Machine → List ActionRun
  | _, [], _ => []
  | afterNew, code :: acts, m =>
    ⟨code, afterNew, m, m.action wordexp c code⟩ ::
      match m.action wordexp c code with
      | .ok (m, false) => actionRuns wordexp c (afterNew || code == 3) acts m
      | _ => []

/-- The actions of the loop over the bytes from `p` on. -/
def execRuns (wordexp : Wordexp) : Bool → List UInt8 → Machine → List ActionRun
  | _, [], _ => []
  | afterNew, c :: rest, m =>
    let next := parserNext m.fsm.cs c
    actionRuns wordexp c afterNew next.2 (m.setCs next.1) ++
      match m.turn wordexp c with
      | .ok (m, false) => execRuns wordexp (afterNew || next.2.contains 3) rest m
      | _ => []

end Machine

/-- The actions that `parseInput` runs. -/
def parseRuns (wordexp : Wordexp) (ss : Session) (line : CString) : List ActionRun :=
  (parseStart ss).execRuns wordexp false (line ++ [0])

namespace TextBuffer

/-- The length is at most `BUFSIZE`, with a NUL at its index. -/
def Terminated (t : TextBuffer) : Prop :=
  ∃ n, t.len = some n ∧ n ≤ bufSize ∧ t.bytes n = some 0

variable {t t' : TextBuffer} {c : UInt8}

theorem Holds.terminated {s : CString} (h : t.Holds s) : t.Terminated := by
  refine ⟨s.length, h.len, h.fits, ?_⟩
  rw [h.bytes s.length le_rfl, List.getElem?_concat_length]

theorem append_terminated (hrun : t.append c = .ok t') (h : t.Terminated) : t'.Terminated := by
  obtain ⟨n, hlen, hle, hnul⟩ := h
  rw [append, hlen] at hrun
  dsimp only at hrun
  split at hrun
  · next hlt =>
    obtain ⟨t₁, _, hrun⟩ := Fault.ok_of_bind hrun
    obtain ⟨t₂, hstore, hrun⟩ := Fault.ok_of_bind hrun
    cases hrun
    rw [store, if_pos (show n + 1 ≤ bufSize from hlt)] at hstore
    cases hstore
    exact ⟨n + 1, rfl, hlt, Function.update_self _ _ _⟩
  · cases hrun
    exact ⟨n, hlen, hle, hnul⟩

theorem reset_terminated (hrun : t.reset = .ok t') : t'.Terminated := by
  obtain ⟨t₁, hreset, hholds⟩ := t.reset_holds
  cases hrun.symm.trans hreset
  exact hholds.terminated

end TextBuffer

namespace Machine

/-- Each array has its length and its NUL. -/
structure Terminated (m : Machine) : Prop where
  buffer : m.fsm.buffer.Terminated
  stdin : m.fsm.stdin.Terminated
  stdout : m.fsm.stdout.Terminated

/-- Before the first `new` only `buflen` is set, and after it every array has its NUL. -/
def Sized (m : Machine) : Bool → Prop
  | false => m.command = none ∧ m.fsm.buffer.len = some 0 ∧ m.fsm.stdin.len = none ∧
      m.fsm.stdout.len = none
  | true => m.Terminated

end Machine

namespace ActionRun

/-- `term`, with `buflen` above 0. -/
def Queues (a : ActionRun) : Prop := a.code = 4 ∧ ∃ n, a.before.fsm.buffer.len = some (n + 1)

/-- The action runs without a fault, on a command or without one as its code needs it, and reads
and leaves arrays that `new` has set. -/
structure Safe (a : ActionRun) : Prop where
  returns : ∃ done, a.result = .ok done
  pending : a.code = 5 ∨ a.code = 6 ∨ a.code = 7 ∨ a.Queues → a.before.command ≠ none
  idle : a.code = 3 → a.before.command = none
  lengths : a.code = 1 ∨ a.code = 2 ∨ a.Queues → a.afterNew = true
  before : a.afterNew = true → a.before.Terminated
  after : a.afterNew = true ∨ a.code = 3 → ∀ done, a.result = .ok done → done.1.Terminated

end ActionRun

namespace Machine

variable {wordexp : Wordexp} {m m' : Machine} {c : UInt8} {code created : Nat} {h h' : Holding}
  {acts : List Nat} {s : ParserState} {done : Machine × Bool} {afterNew : Bool}

theorem new_terminated (hrun : m.new = .ok m') : m'.Terminated := by
  obtain ⟨buffer, hbuffer, hrun⟩ := Fault.ok_of_bind hrun
  obtain ⟨stdout, hstdout, hrun⟩ := Fault.ok_of_bind hrun
  obtain ⟨stdin, hstdin, hrun⟩ := Fault.ok_of_bind hrun
  cases hrun
  exact ⟨TextBuffer.reset_terminated hbuffer, TextBuffer.reset_terminated hstdin,
    TextBuffer.reset_terminated hstdout⟩

/-- Every action keeps the arrays terminated. -/
theorem action_terminated (hrun : m.action wordexp c code = .ok done) (hm : m.Terminated) :
    done.1.Terminated := by
  have hsame : ∀ {m' : Machine}, m'.fsm = m.fsm → m'.Terminated := fun hfsm =>
    ⟨hfsm ▸ hm.buffer, hfsm ▸ hm.stdin, hfsm ▸ hm.stdout⟩
  cases action_acted hrun with
  | append happ => exact ⟨TextBuffer.append_terminated happ hm.buffer, hm.stdin, hm.stdout⟩
  | appendIn happ => exact ⟨hm.buffer, TextBuffer.append_terminated happ hm.stdin, hm.stdout⟩
  | appendOut happ => exact ⟨hm.buffer, hm.stdin, TextBuffer.append_terminated happ hm.stdout⟩
  | new hnew hframe => exact new_terminated hnew
  | term hterm hframe hfsm => exact hsame hfsm
  | setMask hcode hmask hframe hfsm => exact hsame hfsm
  | none hcode => exact hm

theorem append_ne_unassigned {t t' : TextBuffer} (hlen : t.len = none) : t.append c ≠ .ok t' := by
  intro hrun
  rw [TextBuffer.append, hlen] at hrun
  cases hrun

/-- Before the first `new` a run gets to that action, or to the end of an empty line. -/
theorem action_beforeNew (hrun : m.action wordexp c code = .ok done) (hp : m.Pends h)
    (hact : h.act code = some h') (hs : m.Sized false) :
    (code = 3 ∧ done.1.Terminated) ∨ (code = 4 ∧ done.1 = m) := by
  obtain ⟨hcommand, hbuffer, hstdin, hstdout⟩ := hs
  have hnone : h = .idle ∨ h = .queued := by
    cases h with
    | idle => exact .inl rfl
    | fresh => exact absurd hcommand hp.1
    | held => exact absurd hcommand hp.1
    | queued => exact .inr rfl
  cases action_acted hrun with
  | append happ => rcases hnone with rfl | rfl <;> cases hact
  | appendIn happ => exact absurd happ (append_ne_unassigned hstdin)
  | appendOut happ => exact absurd happ (append_ne_unassigned hstdout)
  | new hnew hframe => exact .inl ⟨rfl, new_terminated hnew⟩
  | term hterm hframe hfsm =>
    rw [term, hbuffer] at hterm
    cases hterm
    exact .inr ⟨rfl, rfl⟩
  | setMask hcode hmask hframe hfsm =>
    obtain ⟨rfl, _⟩ := Holding.held_of_act hcode hact
    exact absurd hcommand hp.1
  | none hcode =>
    exfalso
    unfold Holding.act at hact
    split at hact <;> simp_all

/-- An action that the pending command allows is safe, and leaves what the next one needs. -/
theorem action_safe (hrun : m.action wordexp c code = .ok done) (hp : m.Pends h)
    (hact : h.act code = some h') (hs : m.Sized afterNew) :
    (⟨code, afterNew, m, .ok done⟩ : ActionRun).Safe ∧ done.1.Sized (afterNew || code == 3) := by
  have hpending : code = 5 ∨ code = 6 ∨ code = 7 ∨
      (⟨code, afterNew, m, .ok done⟩ : ActionRun).Queues → m.command ≠ none := by
    intro hcode
    have hheld : h = .held := by
      rcases hcode with hcode | hcode | hcode | ⟨rfl, n, hn⟩
      · exact (Holding.held_of_act (.inl hcode) hact).1
      · exact (Holding.held_of_act (.inr (.inl hcode)) hact).1
      · exact (Holding.held_of_act (.inr (.inr hcode)) hact).1
      · change m.fsm.buffer.len = _ at hn
        cases h with
        | idle => cases hn.symm.trans hp.2
        | fresh => cases hn.symm.trans hp.2
        | held => rfl
        | queued => cases hact
    subst hheld
    exact hp.1
  have hidle : code = 3 → m.command = none := by
    rintro rfl
    cases h with
    | idle => exact hp.1
    | fresh => cases hact
    | held => cases hact
    | queued => exact hp
  cases afterNew with
  | true =>
    have hdone := action_terminated hrun hs
    refine ⟨⟨⟨done, rfl⟩, hpending, hidle, fun _ => rfl, fun _ => hs, ?_⟩, hdone⟩
    rintro _ done' hdone'
    cases hdone'
    exact hdone
  | false =>
    rcases action_beforeNew hrun hp hact hs with ⟨rfl, hdone⟩ | ⟨rfl, hsame⟩
    · refine ⟨⟨⟨done, rfl⟩, hpending, hidle, ?_, (fun h => by cases h), ?_⟩, hdone⟩
      · rintro (hcode | hcode | ⟨hcode, _⟩) <;> cases hcode
      · rintro _ done' hdone'
        cases hdone'
        exact hdone
    · refine ⟨⟨⟨done, rfl⟩, hpending, hidle, ?_, (fun h => by cases h), ?_⟩, hsame ▸ hs⟩
      · rintro (hcode | hcode | ⟨_, n, hn⟩)
        · cases hcode
        · cases hcode
        · cases hn.symm.trans hs.2.1
      · rintro (h | hcode)
        · cases h
        · cases hcode

theorem runActions_safe (hrun : m.runActions wordexp c acts = .ok done) (ho : m.Owns created)
    (hp : m.Pends h) (hact : h.actAll acts = some h') (hs : m.Sized afterNew) :
    (∀ a ∈ m.actionRuns wordexp c afterNew acts, a.Safe) ∧
      (done.2 = false → done.1.Sized (afterNew || acts.contains 3)) := by
  induction acts generalizing m h afterNew with
  | nil =>
    cases hrun
    refine ⟨(fun a ha => by cases ha), fun _ => ?_⟩
    simpa using hs
  | cons code acts ih =>
    obtain ⟨h₁, hact₁, hact⟩ := Option.bind_eq_some_iff.mp hact
    obtain ⟨⟨m₁, left⟩, hrun₁, hrun⟩ := Fault.ok_of_bind hrun
    obtain ⟨_, ho₁, hp₁⟩ := action_owns hrun₁ ho hp hact₁
    obtain ⟨hsafe, hs₁⟩ := action_safe hrun₁ hp hact₁ hs
    rw [actionRuns, hrun₁, List.forall_mem_cons]
    cases left with
    | true =>
      cases hrun
      exact ⟨⟨hsafe, (fun a ha => by cases ha)⟩, (fun h => by cases h)⟩
    | false =>
      obtain ⟨hall, hsized⟩ := ih hrun ho₁ (hp₁ rfl) hact hs₁
      refine ⟨⟨hsafe, hall⟩, fun hleft => ?_⟩
      have hcontains : (code :: acts).contains 3 = (code == 3 || acts.contains 3) := by
        rw [List.contains_cons, Bool.beq_comm]
      rw [hcontains, ← Bool.or_assoc]
      exact hsized hleft

theorem sized_setCs (cs : Nat) : (m.setCs cs).Sized afterNew ↔ m.Sized afterNew := by
  cases afterNew with
  | false => exact Iff.rfl
  | true => exact ⟨fun h => ⟨h.buffer, h.stdin, h.stdout⟩, fun h => ⟨h.buffer, h.stdin, h.stdout⟩⟩

theorem sized_next (p : Nat) : Sized { m with p := p } afterNew ↔ m.Sized afterNew := by
  cases afterNew with
  | false => exact Iff.rfl
  | true => exact ⟨fun h => ⟨h.buffer, h.stdin, h.stdout⟩, fun h => ⟨h.buffer, h.stdin, h.stdout⟩⟩

theorem turn_safe (hrun : m.turn wordexp c = .ok done) (hm : m.InState created s)
    (hs : m.Sized afterNew) :
    (∀ a ∈ (m.setCs (parserNext m.fsm.cs c).1).actionRuns wordexp c afterNew
        (parserNext m.fsm.cs c).2, a.Safe) ∧
      (done.2 = false → done.1.Sized (afterNew || (parserNext m.fsm.cs c).2.contains 3)) := by
  have hnext := ParserState.parserNext_eq hm.live c
  rw [← hm.cs] at hnext
  rw [hnext]
  obtain ⟨howns, hpends⟩ := hm.setCs (s.step (classify c)).1.code
  have hsized := (sized_setCs (s.step (classify c)).1.code).mpr hs
  obtain ⟨hstep, rfl⟩ | ⟨done₁, h', hrun₁, hact, _, _, rfl, _⟩ := turn_cases hrun hm
  · rw [hstep]
    exact ⟨(fun a ha => by cases ha), fun hleft => by cases hleft⟩
  · obtain ⟨hsafe, hsized'⟩ := runActions_safe hrun₁ howns hpends hact hsized
    exact ⟨hsafe, fun hleft => (sized_next _).mpr (hsized' hleft)⟩

/-- The actions of a turn come before those of the turns after it. -/
theorem execRuns_cons (hturn : m.turn wordexp c = .ok done) (afterNew : Bool)
    (rest : List UInt8) :
    m.execRuns wordexp afterNew (c :: rest) =
      (m.setCs (parserNext m.fsm.cs c).1).actionRuns wordexp c afterNew (parserNext m.fsm.cs c).2 ++
        if done.2 then [] else
          done.1.execRuns wordexp (afterNew || (parserNext m.fsm.cs c).2.contains 3) rest := by
  obtain ⟨m', left⟩ := done
  rw [execRuns, hturn]
  cases left <;> rfl

theorem exec_safe {line : CString} (hrun : m.exec wordexp (line ++ [0]) = .ok m')
    (hline : ∀ c ∈ line, c ≠ 0) (hm : m.InState created s) (hs : m.Sized afterNew) :
    ∀ a ∈ m.execRuns wordexp afterNew (line ++ [0]), a.Safe := by
  induction line generalizing m s afterNew with
  | nil =>
    obtain ⟨⟨m₁, left⟩, hturn, hrun⟩ := Fault.ok_of_bind hrun
    rw [List.nil_append, execRuns_cons hturn, List.forall_mem_append]
    refine ⟨(turn_safe hturn hm hs).1, ?_⟩
    cases left with
    | true => exact fun a ha => by cases ha
    | false => exact fun a ha => by cases ha
  | cons c line ih =>
    obtain ⟨hc, hline⟩ := List.forall_mem_cons.mp hline
    obtain ⟨⟨m₁, left⟩, hturn, hrun⟩ := Fault.ok_of_bind hrun
    obtain ⟨hsafe, hsized⟩ := turn_safe hturn hm hs
    rw [List.cons_append, execRuns_cons hturn, List.forall_mem_append]
    refine ⟨hsafe, ?_⟩
    cases left with
    | true => exact fun a ha => by cases ha
    | false =>
      exact ih hrun hline ((turn_owns hturn hm).2 rfl hc) (hsized rfl)

end Machine

/-- In every run, accepted, rejected or aborted, the actions are safe: they find a command where
they need one, overwrite none, read no length before `new` and leave no array; and the command that
is released at the end owns nothing. -/
theorem parser_actions_safe (wordexp : Wordexp) (ss : Session) (line : CString)
    (hline : ∀ c ∈ line, c ≠ 0) :
    ∃ r, parseInput wordexp ss line = .ok r ∧
      (∀ a ∈ parseRuns wordexp ss line, a.Safe) ∧
      ∀ cmd, r.leftover = some cmd →
        cmd.argv = none ∧ cmd.redirectToPath = none ∧ cmd.redirectFromPath = none := by
  obtain ⟨r, hparse, _⟩ := parseInput_spec wordexp ss hline
  refine ⟨r, hparse, ?_, (parseInput_owns hline hparse).bare⟩
  obtain ⟨m, hexec, _⟩ := Fault.ok_of_bind hparse
  exact Machine.exec_safe hexec hline (Machine.inState_start ss) ⟨rfl, rfl, rfl, rfl⟩

/-- A line that is aborted in its second command. -/
theorem parser_actions_safe_ls :
    ∃ r, parseInput (fun n text => if n = 1 then none else some [text])
        ⟨Dictionary.empty.toAliases, [], 0⟩ (bytes "ls > a; b c") = .ok r ∧
      (∀ a ∈ parseRuns (fun n text => if n = 1 then none else some [text])
        ⟨Dictionary.empty.toAliases, [], 0⟩ (bytes "ls > a; b c"), a.Safe) ∧
      ∀ cmd, r.leftover = some cmd →
        cmd.argv = none ∧ cmd.redirectToPath = none ∧ cmd.redirectFromPath = none :=
  parser_actions_safe _ _ _ (by decide +kernel)

end Redshell
