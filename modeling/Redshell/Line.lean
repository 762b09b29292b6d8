import Redshell.ParserRun

/-! Lines as complexes between `;` and `|`, and what `parseInput` makes of them. -/
namespace Redshell

inductive Connector where
  | seq
  | pipe
  deriving DecidableEq

def Connector.byte : Connector → UInt8
  | seq => 59
  | pipe => 124

/-- The code of the action that the connector runs. -/
def Connector.actionCode : Connector → Nat
  | seq => 7
  | pipe => 5

def findConnector (c : UInt8) : Option Connector :=
  match classify c with
  | .seq => some .seq
  | .pipe => some .pipe
  | _ => none

/-- The first piece of a line, and the others with the connector before each. -/
def splitLine : CString → CString × List (Connector × CString)
  | [] => ([], [])
  | c :: s =>
    match findConnector c with
    | some k => ([], (k, (splitLine s).1) :: (splitLine s).2)
    | none => (c :: (splitLine s).1, (splitLine s).2)

def joinRest (rest : List (Connector × CString)) : CString :=
  rest.flatMap fun p => p.1.byte :: p.2

/-- The mask of a command that the connector follows. -/
def Connector.mask (g : Complex) : Connector → Connection
  | seq => if g.mask ≠ .background then .sequential else g.mask
  | pipe => .pipe

/-- A complex that was read but whose command is not yet queued. -/
structure Pending where
  complex : Complex
  mask : Connection
  addr : Nat

/-- How a run ends: at the end of the line, in a failed expansion, or in a syntax error. -/
inductive Verdict where
  | accepted (queue : Queue) (session : Session)
  | aborted (queue : Queue) (session : Session)
  | rejected (session : Session)

variable (wordexp : Wordexp)

/-- The pending command, none when its expansion fails. -/
def flush (pending : Option Pending) (ss : Session) : Option (List Command) × Session :=
  match pending with
  | none => (some [], ss)
  | some p =>
    match p.complex.finish wordexp p.addr p.mask ss with
    | (none, ss) => (none, ss)
    | (some command, ss) => (some [command], ss)

/-- Reading a piece that starts with `c`: what is pending is queued at its first byte. -/
def readPiece (pending : Option Pending) (c : UInt8) (u : CString) (queue : Queue)
    (ss : Session) (next : Complex → Nat → Queue → Session → Verdict) : Verdict :=
  match Complex.empty.push c with
  | none => .rejected ss
  | some g =>
    match flush wordexp pending ss with
    | (none, ss) => .aborted queue ss
    | (some done, ss) =>
      match g.scan u with
      | none => .rejected { ss with created := ss.created + 1 }
      | some g => next g ss.created (queue ++ done) { ss with created := ss.created + 1 }

/-- The end of the line after a complex, the first of the line or a later one. -/
def endLine (first : Bool) (g : Complex) (addr : Nat) (queue : Queue) (ss : Session) : Verdict :=
  if g.Complete then
    match g.finish wordexp addr g.mask ss with
    | (none, ss) => .aborted queue ss
    | (some command, ss) => .accepted (queueInsert queue command) ss
  else if first = true ∧ g.kinds = [.command] then .accepted queue ss
  else .rejected ss

/-- The run from the piece `u` on, the first of the line or a later one, with the pieces in
`rest` after it. -/
def interpret :
    List (Connector × CString) → Bool → Option Pending → CString → Queue → Session → Verdict
  | [], first, _, [], queue, ss => if first then .accepted queue ss else .rejected ss
  | [], first, pending, c :: u, queue, ss =>
    readPiece wordexp pending c u queue ss (endLine wordexp first)
  | _ :: _, _, _, [], _, ss => .rejected ss
  | (k, u') :: rest, _, pending, c :: u, queue, ss =>
    readPiece wordexp pending c u queue ss fun g addr queue ss =>
      if g.Complete then interpret rest false (some ⟨g, k.mask g, addr⟩) u' queue ss
      else .rejected ss

/-! Splitting a line. -/

theorem findConnector_eq_some_iff {c : UInt8} {k : Connector} :
    findConnector c = some k ↔ c = k.byte := by
  constructor
  · intro h
    unfold findConnector at h
    split at h <;> cases h
    · rename_i hc
      exact (classify_eq_iff c).2.1.mp hc
    · rename_i hc
      exact (classify_eq_iff c).2.2.1.mp hc
  · rintro rfl
    cases k <;> decide

theorem findConnector_eq_none_iff {c : UInt8} :
    findConnector c = none ↔ classify c ≠ .seq ∧ classify c ≠ .pipe := by
  unfold findConnector
  split <;> simp_all

theorem joinRest_splitLine (s : CString) :
    (splitLine s).1 ++ joinRest (splitLine s).2 = s := by
  induction s with
  | nil => rfl
  | cons c s ih =>
    rw [splitLine]
    cases hc : findConnector c with
    | none =>
      simp only [List.cons_append]
      rw [ih]
    | some k =>
      obtain rfl := findConnector_eq_some_iff.mp hc
      simp only [joinRest, List.flatMap_cons, List.nil_append, List.cons_append]
      rw [← joinRest, ih]

/-- The pieces of a line without NUL have plain bytes only. -/
theorem splitLine_plain {s : CString} (h : ∀ c ∈ s, c ≠ 0) :
    (∀ c ∈ (splitLine s).1, Machine.Plain c) ∧
      ∀ p ∈ (splitLine s).2, ∀ c ∈ p.2, Machine.Plain c := by
  induction s with
  | nil => simp [splitLine]
  | cons c s ih =>
    obtain ⟨hfirst, hrest⟩ := ih fun d hd => h d (List.mem_cons_of_mem _ hd)
    rw [splitLine]
    cases hc : findConnector c with
    | none =>
      refine ⟨fun d hd => ?_, hrest⟩
      rcases List.mem_cons.mp hd with rfl | hd
      · have hnul : classify d ≠ .nul := fun he =>
          h d List.mem_cons_self ((classify_eq_iff d).1.mp he)
        exact ⟨hnul, findConnector_eq_none_iff.mp hc⟩
      · exact hfirst d hd
    | some k =>
      refine ⟨by simp, fun p hp => ?_⟩
      rcases List.mem_cons.mp hp with rfl | hp
      · exact hfirst
      · exact hrest p hp

/-! The machine between two pieces. -/

namespace Machine

/-- The machine before a piece, with what is pending. -/
def AtPiece (m : Machine) : Option Pending → Prop
  | none => m.fsm.cs = ParserState.start.code ∧ m.fsm.buffer.len = some 0
  | some p =>
    m.fsm.cs = ParserState.joined.code ∧ p.complex.Complete ∧
      m.Holds p.complex { commandNew p.addr with connectionMask := p.mask }

/-- How the machine stands when a run ends. -/
def Agrees (m : Machine) : Verdict → Prop
  | .accepted queue ss => m.fsm.cs = ParserState.final.code ∧ m.queue = queue ∧ m.session = ss
  | .aborted queue ss => m.fsm.cs ≠ parserError ∧ m.queue = queue ∧ m.session = ss
  | .rejected ss => m.fsm.cs = parserError ∧ m.session = ss

variable {wordexp : Wordexp} {m : Machine} {g : Complex} {c : UInt8} {pending : Option Pending}
  {first : Bool} {addr : Nat} {k : Connector}

theorem textOf_command_ne_nil (hw : g.WellFormed) (hc : g.Complete) : g.textOf .command ≠ [] := by
  obtain ⟨a, t, ht, _⟩ := hw.isString_textOf hc hw.command_mem
  rw [ht]
  exact List.cons_ne_nil a t

/-- What starts a complex starts it in both states before a piece. -/
theorem step_atPiece (hc : Plain c) :
    ParserState.start.step (classify c) =
        (match Complex.empty.push c with
          | some g => (g.state true, 3 :: Complex.empty.actions c)
          | none => (.error, [])) ∧
      ParserState.joined.step (classify c) =
        match Complex.empty.push c with
          | some g => (g.state false, 4 :: 3 :: Complex.empty.actions c)
          | none => (.error, []) := by
  obtain ⟨hnul, hseq, hpipe⟩ := hc
  cases hcl : classify c with
  | nul => exact absurd hcl hnul
  | seq => exact absurd hcl hseq
  | pipe => exact absurd hcl hpipe
  | word =>
    simp [Complex.push, Complex.empty, hcl, ParserState.step, Complex.state, Complex.pushText,
      Complex.kinds, Complex.parts, Complex.Complete, Complex.place, Complex.actions,
      Complex.appendCode]
  | space =>
    simp [Complex.push, Complex.empty, hcl, ParserState.step, Complex.state, Complex.pushGap,
      Complex.kinds, Complex.parts, Complex.Complete, Complex.place, Complex.actions]
  | stdin => simp [Complex.push, Complex.empty, hcl, ParserState.step, Complex.redirect]
  | stdout => simp [Complex.push, Complex.empty, hcl, ParserState.step, Complex.redirect]
  | bg => simp [Complex.push, Complex.empty, hcl, ParserState.step]

/-- Creating a command and taking in the first byte of its complex. -/
theorem runActions_new (wordexp : Wordexp) (hp : Complex.empty.push c = some g) :
    ∃ m', runActions wordexp c (3 :: Complex.empty.actions c) m = .ok (m', false) ∧
      m'.Holds g { commandNew m.session.created with connectionMask := g.mask } ∧
      Frame { m with session := { m.session with created := m.session.created + 1 } } m' := by
  obtain ⟨m₁, hnew, hholds, hf⟩ := new_holds m
  obtain ⟨m₂, hrun, hholds', hf'⟩ :=
    runActions_push wordexp (commandNew m.session.created) hholds hp
  refine ⟨m₂, ?_, hholds', ⟨?_, ?_, ?_, ?_⟩⟩
  · simp [runActions, action, hnew]
    exact hrun
  · exact hf'.cs.trans hf.cs
  · exact hf'.p.trans hf.p
  · exact hf'.queue.trans hf.queue
  · exact hf'.session.trans hf.session

/-- The first byte of a piece queues what is pending and starts a complex. -/
theorem turn_atPiece (wordexp : Wordexp) (h : m.AtPiece pending) (hc : Plain c) :
    match Complex.empty.push c with
    | none => ∃ m', m.turn wordexp c = .ok (m', true) ∧ m'.fsm.cs = parserError ∧
        m'.session = m.session
    | some g =>
      match flush wordexp pending m.session with
      | (none, ss) => ∃ m', m.turn wordexp c = .ok (m', true) ∧ m'.fsm.cs ≠ parserError ∧
          m'.queue = m.queue ∧ m'.session = ss
      | (some done, ss) => ∃ m', m.turn wordexp c = .ok (m', false) ∧
          m'.Reads pending.isNone g ss.created ∧ m'.queue = m.queue ++ done ∧
          m'.session = { ss with created := ss.created + 1 } := by
  obtain ⟨hstart, hjoined⟩ := step_atPiece hc
  cases pending with
  | none =>
    obtain ⟨hcs, _⟩ := h
    cases hp : Complex.empty.push c with
    | none =>
      rw [hp] at hstart
      exact ⟨_, turn_error hcs (by decide) hstart, rfl, rfl⟩
    | some g =>
      rw [hp] at hstart
      obtain ⟨m', hrun, hholds, hf⟩ := runActions_new wordexp
        (m := m.setCs (g.state true).code) hp
      have hne := state_ne_error true hholds.wellFormed
      refine ⟨{ m' with p := m'.p + 1 }, turn_next hcs (by decide) hstart hne hrun hf.cs,
        ⟨⟨hholds.wellFormed, hholds.buffers, hholds.command⟩, hf.cs⟩, ?_, hf.session⟩
      simpa using hf.queue
  | some p =>
    obtain ⟨hcs, hcomp, hholds⟩ := h
    cases hp : Complex.empty.push c with
    | none =>
      rw [hp] at hjoined
      exact ⟨_, turn_error hcs (by decide) hjoined, rfl, rfl⟩
    | some g =>
      rw [hp] at hjoined
      have hne := state_ne_error false
        (Complex.push_wellFormed Complex.wellFormed_empty hp)
      have hterm := term_holds wordexp (hholds.setCs (g.state false).code)
        (textOf_command_ne_nil hholds.wellFormed hcomp)
      simp only [flush]
      cases hfin : p.complex.finish wordexp p.addr p.mask m.session with
      | mk done ss =>
        rw [setCs_session, hfin] at hterm
        cases done with
        | none =>
          have hrun : runActions wordexp c (4 :: 3 :: Complex.empty.actions c)
              (m.setCs (g.state false).code) =
                .ok ({ m.setCs (g.state false).code with session := ss }, true) := by
            rw [runActions, action, hterm]
            rfl
          refine ⟨_, turn_break hcs (by decide) hjoined hrun, ?_, rfl, rfl⟩
          exact fun he => hne (ParserState.code_eq_zero_iff.mp he)
        | some command =>
          obtain ⟨m', hnew, hholds', hf⟩ := runActions_new wordexp
            (m := { m.setCs (g.state false).code with
              queue := queueInsert m.queue command, command := none, session := ss }) hp
          have hrun : runActions wordexp c (4 :: 3 :: Complex.empty.actions c)
              (m.setCs (g.state false).code) = .ok (m', false) := by
            rw [runActions, action, hterm]
            exact hnew
          exact ⟨{ m' with p := m'.p + 1 }, turn_next hcs (by decide) hjoined hne hrun hf.cs,
            ⟨⟨hholds'.wellFormed, hholds'.buffers, hholds'.command⟩, hf.cs⟩, hf.queue, hf.session⟩

theorem state_close (hw : g.WellFormed) (first : Bool) :
    (g.state first).step .seq = (if g.Complete then (.joined, [7]) else (.error, [])) ∧
      (g.state first).step .pipe = (if g.Complete then (.joined, [5]) else (.error, [])) ∧
      (g.state first).step .nul =
        if g.Complete ∨ first = true ∧ g.kinds = [.command] then (.final, [4])
        else (.error, []) := by
  cases hb : g.background with
  | some trail =>
    have hcomp := (hw.background trail hb).1
    simp [Complex.state, hb, hcomp, ParserState.step]
  | none =>
    obtain ⟨hseq, hpipe, hnul⟩ :=
      Complex.step_place_close g.kinds hw.order first (decide g.Complete)
    simp only [Complex.state, hb, hseq, hpipe, hnul, decide_eq_true_eq, and_self]

/-- A connector closes a complete complex. -/
theorem turn_connector (wordexp : Wordexp) (h : m.Reads first g addr) (k : Connector) :
    if g.Complete then ∃ m', m.turn wordexp k.byte = .ok (m', false) ∧
      m'.AtPiece (some ⟨g, k.mask g, addr⟩) ∧ m'.queue = m.queue ∧ m'.session = m.session
    else ∃ m', m.turn wordexp k.byte = .ok (m', true) ∧ m'.fsm.cs = parserError ∧
      m'.session = m.session := by
  have hw := h.holds.wellFormed
  have hlive := Complex.state_mem_live first hw
  obtain ⟨hseq, hpipe, _⟩ := state_close hw first
  have hstep : (g.state first).step (classify k.byte) =
      if g.Complete then (.joined, [k.actionCode])
      else (.error, []) := by
    cases k
    exacts [hseq, hpipe]
  split
  · rename_i hcomp
    rw [if_pos hcomp] at hstep
    have hcommand : (m.setCs ParserState.joined.code).command =
        some { commandNew addr with connectionMask := g.mask } := h.holds.command
    have hrun : runActions wordexp k.byte [k.actionCode]
        (m.setCs ParserState.joined.code) = .ok ({ m.setCs ParserState.joined.code with
          command := some { commandNew addr with connectionMask := k.mask g } }, false) := by
      cases k with
      | seq =>
        simp [runActions, action, Connector.actionCode, seq, setMask, hcommand, Connector.mask]
        rfl
      | pipe =>
        simp [runActions, action, Connector.actionCode, pipe, setMask, hcommand, Connector.mask]
        rfl
    exact ⟨_, turn_next h.cs hlive hstep (by decide) hrun rfl,
      ⟨rfl, hcomp, hw, (h.holds.setCs ParserState.joined.code).buffers, rfl⟩, rfl, rfl⟩
  · rename_i hcomp
    rw [if_neg hcomp] at hstep
    exact ⟨_, turn_error h.cs hlive hstep, rfl, rfl⟩

theorem exec_cons (rest : CString) {m' : Machine} (h : m.turn wordexp c = .ok (m', false)) :
    m.exec wordexp (c :: rest) = m'.exec wordexp rest := by
  simp only [exec, h, bind, Except.bind]
  rfl

theorem exec_stop (rest : CString) {m' : Machine} (h : m.turn wordexp c = .ok (m', true)) :
    m.exec wordexp (c :: rest) = .ok m' := by
  simp only [exec, h, bind, Except.bind]
  rfl

/-- The terminating NUL ends a complete complex, or a blank line. -/
theorem exec_nul (h : m.Reads first g addr) :
    ∃ m' : Machine, m.exec wordexp [0] = .ok m' ∧
      m'.Agrees (endLine wordexp first g addr m.queue m.session) := by
  have hw := h.holds.wellFormed
  have hlive := Complex.state_mem_live first hw
  obtain ⟨_, _, hnul⟩ := state_close hw first
  change (g.state first).step (classify 0) = _ at hnul
  by_cases hcomp : g.Complete
  · rw [if_pos (Or.inl hcomp)] at hnul
    have hterm := term_holds wordexp (h.holds.setCs ParserState.final.code)
      (textOf_command_ne_nil hw hcomp)
    rw [setCs_session] at hterm
    simp only [endLine, if_pos hcomp]
    cases hfin : g.finish wordexp addr g.mask m.session with
    | mk done ss =>
      rw [hfin] at hterm
      cases done with
      | none =>
        have hrun : runActions wordexp 0 [4] (m.setCs ParserState.final.code) =
            .ok ({ m.setCs ParserState.final.code with session := ss }, true) := by
          rw [runActions, action, hterm]
          rfl
        refine ⟨_, exec_stop [] (turn_break h.cs hlive hnul hrun), ?_, rfl, rfl⟩
        exact (by decide : ParserState.final.code ≠ parserError)
      | some command =>
        have hrun : runActions wordexp 0 [4] (m.setCs ParserState.final.code) =
            .ok ({ m.setCs ParserState.final.code with
              queue := queueInsert m.queue command, command := none, session := ss }, false) := by
          rw [runActions, action, hterm]
          rfl
        exact ⟨_, exec_cons [] (turn_next h.cs hlive hnul (by decide) hrun rfl), rfl, rfl, rfl⟩
  · by_cases hblank : first = true ∧ g.kinds = [.command]
    · rw [if_pos (Or.inr hblank)] at hnul
      have htext : g.textOf .command = [] := by
        have hkind : g.current.kind = .command := by
          have hk := hblank.2
          rw [Complex.kinds, Complex.parts, List.map_cons, List.cons.injEq] at hk
          exact hk.1
        have ht := g.textOf_current
        rw [hkind] at ht
        rw [ht]
        exact not_not.mp hcomp
      have hterm := term_blank wordexp (h.holds.setCs ParserState.final.code) htext
      have hrun : runActions wordexp 0 [4] (m.setCs ParserState.final.code) =
          .ok (m.setCs ParserState.final.code, false) := by
        rw [runActions, action, hterm]
        rfl
      rw [endLine, if_neg hcomp, if_pos hblank]
      exact ⟨_, exec_cons [] (turn_next h.cs hlive hnul (by decide) hrun rfl), rfl, rfl, rfl⟩
    · rw [if_neg (not_or.mpr ⟨hcomp, hblank⟩)] at hnul
      rw [endLine, if_neg hcomp, if_neg hblank]
      exact ⟨_, exec_stop [] (turn_error h.cs hlive hnul), rfl, rfl⟩

/-- Reading a piece, when the run after it is known. -/
theorem exec_piece {u tail : CString} {next : Complex → Nat → Queue → Session → Verdict}
    (h : m.AtPiece pending) (hu : ∀ d ∈ c :: u, Plain d)
    (hnext : ∀ (m' : Machine) (g : Complex) (addr : Nat), m'.Reads pending.isNone g addr →
      ∃ m'' : Machine, m'.exec wordexp tail = .ok m'' ∧
        m''.Agrees (next g addr m'.queue m'.session)) :
    ∃ m' : Machine, m.exec wordexp (c :: u ++ tail) = .ok m' ∧
      m'.Agrees (readPiece wordexp pending c u m.queue m.session next) := by
  have hturn := turn_atPiece wordexp h (hu c List.mem_cons_self)
  rw [readPiece, List.cons_append]
  cases hp : Complex.empty.push c with
  | none =>
    rw [hp] at hturn
    obtain ⟨m', hm, hcs, hss⟩ := hturn
    exact ⟨m', exec_stop _ hm, hcs, hss⟩
  | some g =>
    rw [hp] at hturn
    simp only at hturn ⊢
    cases hfl : flush wordexp pending m.session with
    | mk done ss =>
      rw [hfl] at hturn
      cases done with
      | none =>
        obtain ⟨m', hm, hcs, hq, hss⟩ := hturn
        exact ⟨m', exec_stop _ hm, hcs, hq, hss⟩
      | some done =>
        obtain ⟨m', hm, hr, hq, hss⟩ := hturn
        rw [exec_cons _ hm]
        have hscan := exec_scan wordexp hr
          (fun d hd => hu d (List.mem_cons_of_mem _ hd)) tail
        simp only
        cases hg : g.scan u with
        | none =>
          rw [hg] at hscan
          obtain ⟨m'', hm', hcs, hss'⟩ := hscan
          exact ⟨m'', hm', hcs, hss'.trans hss⟩
        | some g' =>
          rw [hg] at hscan
          obtain ⟨m'', hm', hr', hq', hss'⟩ := hscan
          rw [hm', ← hq, ← hss, ← hq', ← hss']
          exact hnext m'' g' ss.created hr'

theorem exec_empty (h : m.AtPiece pending) (hq : pending = none → m.queue = queueNew) :
    ∃ m' : Machine, m.exec wordexp [0] = .ok m' ∧
      m'.Agrees (interpret wordexp [] pending.isNone pending [] m.queue m.session) := by
  cases pending with
  | none =>
    obtain ⟨hcs, hlen⟩ := h
    have hterm : (m.setCs ParserState.final.code).term wordexp =
        .ok (m.setCs ParserState.final.code, false) := by
      simp [term, setCs, hlen]
    have hrun : runActions wordexp 0 [4] (m.setCs ParserState.final.code) =
        .ok (m.setCs ParserState.final.code, false) := by
      rw [runActions, action, hterm]
      rfl
    have hstep : ParserState.start.step (classify 0) = (.final, [4]) := by decide
    exact ⟨_, exec_cons [] (turn_next hcs (by decide) hstep (by decide) hrun rfl), rfl, rfl, rfl⟩
  | some p =>
    obtain ⟨hcs, _, _⟩ := h
    exact ⟨_, exec_stop [] (turn_error hcs (by decide) (by decide)), rfl, rfl⟩

theorem exec_connector (h : m.AtPiece pending) (k : Connector) (rest : CString) :
    ∃ m' : Machine, m.exec wordexp (k.byte :: rest) = .ok m' ∧ m'.Agrees (.rejected m.session) := by
  cases pending with
  | none =>
    obtain ⟨hcs, _⟩ := h
    exact ⟨_, exec_stop _ (turn_error hcs (by decide) (by cases k <;> decide)), rfl, rfl⟩
  | some p =>
    obtain ⟨hcs, _, _⟩ := h
    exact ⟨_, exec_stop _ (turn_error hcs (by decide) (by cases k <;> decide)), rfl, rfl⟩

/-- The run over the rest of a line is what the pieces mean. -/
theorem exec_interpret (wordexp : Wordexp) {rest : List (Connector × CString)} {u : CString}
    (h : m.AtPiece pending) (hu : ∀ d ∈ u, Plain d) (hrest : ∀ p ∈ rest, ∀ d ∈ p.2, Plain d)
    (hq : pending = none → m.queue = queueNew) :
    ∃ m' : Machine, m.exec wordexp (u ++ (joinRest rest ++ [0])) = .ok m' ∧
      m'.Agrees (interpret wordexp rest pending.isNone pending u m.queue m.session) := by
  induction rest generalizing m u pending with
  | nil =>
    cases u with
    | nil => exact exec_empty h hq
    | cons c u => exact exec_piece h hu fun m' g addr hr => exec_nul hr
  | cons p rest ih =>
    obtain ⟨k, u'⟩ := p
    have hjoin : joinRest ((k, u') :: rest) ++ [0] =
        k.byte :: (u' ++ (joinRest rest ++ [0])) := by
      simp [joinRest]
    rw [hjoin]
    cases u with
    | nil => exact exec_connector h k _
    | cons c u =>
      refine exec_piece h hu fun m' g addr hr => ?_
      have hturn := turn_connector wordexp hr k
      split at hturn
      · rename_i hcomp
        obtain ⟨m'', hm, hat, hq, hss⟩ := hturn
        rw [exec_cons _ hm, if_pos hcomp, ← hq, ← hss]
        exact ih hat (hrest _ List.mem_cons_self) (fun p hp => hrest p (List.mem_cons_of_mem _ hp))
          (fun he => by cases he)
      · rename_i hcomp
        obtain ⟨m'', hm, hcs, hss⟩ := hturn
        rw [if_neg hcomp]
        exact ⟨m'', exec_stop _ hm, hcs, hss⟩

end Machine

/-- What a line means, from its first piece on. -/
def interpretLine (wordexp : Wordexp) (ss : Session) (line : CString) : Verdict :=
  interpret wordexp (splitLine line).2 true none (splitLine line).1 queueNew ss

def Verdict.queue : Verdict → Queue
  | accepted queue _ => queue
  | aborted queue _ => queue
  | rejected _ => queueNew

def Verdict.session : Verdict → Session
  | accepted _ ss => ss
  | aborted _ ss => ss
  | rejected ss => ss

def Verdict.isRejected : Verdict → Bool
  | rejected _ => true
  | _ => false

/-- `parseInput` makes of every line what its pieces mean, and no run faults. -/
theorem parseInput_spec (wordexp : Wordexp) (ss : Session) {line : CString}
    (hline : ∀ c ∈ line, c ≠ 0) :
    ∃ r, parseInput wordexp ss line = .ok r ∧
      r.queue = (interpretLine wordexp ss line).queue ∧
      r.session = (interpretLine wordexp ss line).session ∧
      (r.cs = parserError ↔ (interpretLine wordexp ss line).isRejected = true) := by
  obtain ⟨hfirst, hrest⟩ := splitLine_plain hline
  have hstart : (parseStart ss).AtPiece none := ⟨rfl, rfl⟩
  obtain ⟨m, hm, hagree⟩ := Machine.exec_interpret wordexp hstart hfirst hrest
    fun _ => rfl
  have hbytes : (splitLine line).1 ++ (joinRest (splitLine line).2 ++ [0]) = line ++ [0] := by
    rw [← List.append_assoc, joinRest_splitLine]
  rw [hbytes] at hm
  refine ⟨parseEnd m, by simp [parseInput, hm], ?_⟩
  change Machine.Agrees m (interpretLine wordexp ss line) at hagree
  cases hv : interpretLine wordexp ss line with
  | accepted queue ss' =>
    rw [hv] at hagree
    obtain ⟨hcs, hq, hss⟩ := hagree
    have hne : m.fsm.cs ≠ parserError := by
      rw [hcs]
      decide
    exact ⟨(if_neg hne).trans hq, hss, by simp [parseEnd, hne, Verdict.isRejected]⟩
  | aborted queue ss' =>
    rw [hv] at hagree
    obtain ⟨hne, hq, hss⟩ := hagree
    exact ⟨(if_neg hne).trans hq, hss, by simp [parseEnd, hne, Verdict.isRejected]⟩
  | rejected ss' =>
    rw [hv] at hagree
    obtain ⟨hcs, hss⟩ := hagree
    exact ⟨if_pos hcs, hss, by simp [parseEnd, hcs, Verdict.isRejected]⟩

end Redshell
