import Redshell.ParserState

/-! What the machine holds while it reads a complex, and what its actions do with it. -/
namespace Redshell

namespace TextBuffer

/-- The array holds the string and its NUL. -/
structure Holds (t : TextBuffer) (s : CString) : Prop where
  len : t.len = some s.length
  fits : s.length ≤ bufSize
  bytes : ∀ i, i ≤ s.length → t.bytes i = (s ++ [0])[i]?
  nonzero : ∀ c ∈ s, c ≠ 0

variable {t : TextBuffer} {s u : CString} {c : UInt8}

theorem reset_holds (t : TextBuffer) : ∃ t', t.reset = .ok t' ∧ t'.Holds [] := by
  refine ⟨⟨Function.update t.bytes 0 (some 0), some 0⟩, rfl, rfl, Nat.zero_le _, fun i hi => ?_,
    by simp⟩
  obtain rfl : i = 0 := by simpa using hi
  simp

theorem append_holds (h : t.Holds (s.take bufSize)) (hc : c ≠ 0) :
    ∃ t', t.append c = .ok t' ∧ t'.Holds ((s ++ [c]).take bufSize) := by
  obtain ⟨hlen, hfits, hbytes, hnz⟩ := h
  by_cases hs : s.length < bufSize
  · have htake : s.take bufSize = s := List.take_of_length_le (by omega)
    have htake' : (s ++ [c]).take bufSize = s ++ [c] :=
      List.take_of_length_le (by simp only [List.length_append, List.length_singleton]; omega)
    rw [htake] at hlen hbytes hnz
    have hle : s.length ≤ bufSize := Nat.le_of_lt hs
    have hle' : s.length + 1 ≤ bufSize := hs
    refine ⟨⟨Function.update (Function.update t.bytes s.length (some c)) (s.length + 1) (some 0),
      some (s.length + 1)⟩, ?_, ?_, ?_, ?_, ?_⟩
    · simp [append, hlen, hs, store, hle, hle']
      rfl
    · simp [htake']
    · simpa [htake'] using hle'
    · intro i hi
      rw [htake', List.length_append, List.length_singleton] at hi
      rw [htake']
      by_cases h1 : i = s.length + 1
      · subst h1
        simp
      · by_cases h2 : i = s.length
        · subst h2
          simp
        · have hlt : i < s.length := by omega
          have hb := hbytes i (by omega)
          rw [List.getElem?_append_left hlt] at hb
          rw [List.append_assoc, List.getElem?_append_left hlt]
          simpa [h1, h2] using hb
    · rw [htake']
      intro d hd
      rcases List.mem_append.mp hd with hd | hd
      · exact hnz d hd
      · rwa [List.mem_singleton.mp hd]
  · have htake : (s ++ [c]).take bufSize = s.take bufSize :=
      List.take_append_of_le_length (by omega)
    have hfull : (s.take bufSize).length = bufSize := by
      rw [List.length_take]
      omega
    refine ⟨t, ?_, ?_⟩
    · simp [append, hlen, hfull]
    · rw [htake]
      exact ⟨hlen, hfits, hbytes, hnz⟩

theorem readFrom_holds (n : Nat) (h : t.Holds (u ++ s)) (hn : s.length < n) :
    t.readFrom n u.length = .ok s := by
  induction s generalizing u n with
  | nil =>
    obtain ⟨n, rfl⟩ := Nat.exists_eq_add_of_lt hn
    have hb := h.bytes u.length (by simp)
    simp only [List.append_nil, List.getElem?_concat_length] at hb
    simp [readFrom, hb]
  | cons c s ih =>
    obtain ⟨n, rfl⟩ := Nat.exists_eq_succ_of_ne_zero (Nat.ne_zero_of_lt hn)
    have hb := h.bytes u.length (by simp)
    rw [List.append_assoc, List.getElem?_append_right (Nat.le_refl _), Nat.sub_self] at hb
    have hc : c ≠ 0 := h.nonzero c (by simp)
    have hread := ih (u := u ++ [c]) n (by simpa using h) (by simpa using hn)
    rw [List.length_append, List.length_singleton] at hread
    simp only [List.cons_append, List.getElem?_cons_zero] at hb
    simp [readFrom, hb, hc, hread]

theorem text_holds (h : t.Holds s) : t.text = .ok s := by
  have hfits := h.fits
  exact readFrom_holds (u := []) _ h (by omega)

end TextBuffer

def Params.bufferOf (fsm : Params) : Kind → TextBuffer
  | .command => fsm.buffer
  | .stdin => fsm.stdin
  | .stdout => fsm.stdout

/-- The mark that an `&` leaves on the pending command. -/
def Complex.mask (g : Complex) : Connection :=
  match g.background with
  | some _ => .background
  | none => .none

/-- The path of a redirection with this text: none when the text is empty. -/
def expandPart (wordexp : Wordexp) (text : CString) (ss : Session) : Option CString × Session :=
  if text = [] then (none, ss) else expand wordexp text ss

/-- The command that a complete complex makes, none when its expansion fails. -/
def Complex.finish (wordexp : Wordexp) (g : Complex) (addr : Nat) (mask : Connection)
    (ss : Session) : Option Command × Session :=
  let tmp := expandAliasIn ((g.textOf .command).take bufSize) ss
  match expandGlob wordexp tmp.1 tmp.2 with
  | (none, ss) => (none, ss)
  | (some words, ss) =>
    let stdin := expandPart wordexp ((g.textOf .stdin).take bufSize) ss
    let stdout := expandPart wordexp ((g.textOf .stdout).take bufSize) stdin.2
    (some
      { addr := addr
        path := words.head?
        argv := some words
        redirectToPath := stdout.1
        redirectFromPath := stdin.1
        connectionMask := mask },
      stdout.2)

namespace Machine

@[simp] theorem setCs_cs (m : Machine) (cs : Nat) : (m.setCs cs).fsm.cs = cs := rfl

@[simp] theorem setCs_queue (m : Machine) (cs : Nat) : (m.setCs cs).queue = m.queue := rfl

@[simp] theorem setCs_session (m : Machine) (cs : Nat) : (m.setCs cs).session = m.session := rfl

/-- The arrays hold the texts of the complex, cut to their size, and a command is pending. -/
structure Holds (m : Machine) (g : Complex) (command : Command) : Prop where
  wellFormed : g.WellFormed
  buffers : ∀ k, (m.fsm.bufferOf k).Holds ((g.textOf k).take bufSize)
  command : m.command = some command

/-- The same place, queue and session; the arrays and the pending command may differ. -/
structure Frame (m m' : Machine) : Prop where
  cs : m'.fsm.cs = m.fsm.cs
  p : m'.p = m.p
  queue : m'.queue = m.queue
  session : m'.session = m.session

variable {wordexp : Wordexp} {m m' : Machine} {g g' : Complex} {command : Command} {c : UInt8}
  {ss : Session}

theorem Frame.refl (m : Machine) : Frame m m := ⟨rfl, rfl, rfl, rfl⟩

theorem Holds.setCs (h : m.Holds g command) (cs : Nat) : (m.setCs cs).Holds g command where
  wellFormed := h.wellFormed
  buffers := by
    intro k
    cases k with
    | command => exact h.buffers .command
    | stdin => exact h.buffers .stdin
    | stdout => exact h.buffers .stdout
  command := h.command

theorem new_holds (m : Machine) :
    ∃ m', m.new = .ok m' ∧ m'.Holds .empty (commandNew m.session.created) ∧
      Frame { m with session := { m.session with created := m.session.created + 1 } } m' := by
  obtain ⟨buffer, hb, hbuffer⟩ := TextBuffer.reset_holds m.fsm.buffer
  obtain ⟨stdout, ho, hstdout⟩ := TextBuffer.reset_holds m.fsm.stdout
  obtain ⟨stdin, hi, hstdin⟩ := TextBuffer.reset_holds m.fsm.stdin
  refine ⟨{ m with
    fsm := { m.fsm with buffer := buffer, stdin := stdin, stdout := stdout }
    command := some (commandNew m.session.created)
    session := { m.session with created := m.session.created + 1 } }, ?_,
    ⟨Complex.wellFormed_empty, ?_, rfl⟩, ⟨rfl, rfl, rfl, rfl⟩⟩
  · simp [new, hb, ho, hi]
    rfl
  · intro k
    have hempty : Complex.empty.textOf k = [] := by cases k <;> rfl
    rw [hempty]
    cases k with
    | command => exact hbuffer
    | stdin => exact hstdin
    | stdout => exact hstdout

/-- Appending to the array of a part. -/
theorem action_append (wordexp : Wordexp) (h : m.Holds g command) (k : Kind) (hc : c ≠ 0) :
    ∃ m', m.action wordexp c (Complex.appendCode k) = .ok (m', false) ∧
      (∀ k', (m'.fsm.bufferOf k').Holds
        ((if k' = k then g.textOf k' ++ [c] else g.textOf k').take bufSize)) ∧
      m'.command = some command ∧ Frame m m' := by
  obtain ⟨t, ht, hholds⟩ := TextBuffer.append_holds (h.buffers k) hc
  cases k with
  | command =>
    refine ⟨{ m with fsm := { m.fsm with buffer := t } }, ?_, fun k' => ?_, h.command,
      ⟨rfl, rfl, rfl, rfl⟩⟩
    · simp [action, Complex.appendCode, append, show m.fsm.buffer.append c = .ok t from ht]
    · cases k' with
      | command => exact hholds
      | stdin => exact h.buffers .stdin
      | stdout => exact h.buffers .stdout
  | stdin =>
    refine ⟨{ m with fsm := { m.fsm with stdin := t } }, ?_, fun k' => ?_, h.command,
      ⟨rfl, rfl, rfl, rfl⟩⟩
    · simp [action, Complex.appendCode, appendIn, show m.fsm.stdin.append c = .ok t from ht]
    · cases k' with
      | command => exact h.buffers .command
      | stdin => exact hholds
      | stdout => exact h.buffers .stdout
  | stdout =>
    refine ⟨{ m with fsm := { m.fsm with stdout := t } }, ?_, fun k' => ?_, h.command,
      ⟨rfl, rfl, rfl, rfl⟩⟩
    · simp [action, Complex.appendCode, appendOut, show m.fsm.stdout.append c = .ok t from ht]
    · cases k' with
      | command => exact h.buffers .command
      | stdin => exact h.buffers .stdin
      | stdout => exact hholds

/-- Taking in a byte runs the actions that keep the arrays and the mark up to date. -/
theorem runActions_push (wordexp : Wordexp) (command : Command)
    (h : m.Holds g { command with connectionMask := g.mask }) (hp : g.push c = some g') :
    ∃ m', runActions wordexp c (g.actions c) m = .ok (m', false) ∧
      m'.Holds g' { command with connectionMask := g'.mask } ∧ Frame m m' := by
  have hw' := Complex.push_wellFormed h.wellFormed hp
  rcases Complex.push_cases hp with ⟨hb, hc, hcw, rfl⟩ | ⟨hb, hc, hnc, rfl⟩ |
    ⟨k, hb, hk, hcomp, hnk, rfl⟩ | ⟨hb, rfl, hcomp, rfl⟩ | ⟨trail, hb, hc, rfl⟩
  · have hne : c ≠ 0 := by
      rintro rfl
      revert hc
      decide
    have hacts : g.actions c = [Complex.appendCode g.current.kind] := by
      simp only [isText, decide_eq_true_eq] at hc
      rcases hc with hc | hc
      · simp [Complex.actions, hb, hc]
      · have hcomp : g.Complete := by
          rcases hcw with hcw | hcw
          · exact hcw
          · rw [hc] at hcw
            cases hcw
        simp [Complex.actions, hb, hc, hcomp]
    obtain ⟨m', hm, hbuf, hcmd, hframe⟩ :=
      action_append wordexp h g.current.kind hne
    refine ⟨m', ?_, ⟨hw', fun k => ?_, ?_⟩, hframe⟩
    · rw [hacts]
      simp [runActions, hm]
      rfl
    · rw [Complex.textOf_pushText]
      exact hbuf k
    · exact hcmd
  · have hacts : g.actions c = [] := by simp [Complex.actions, hb, hc, hnc]
    refine ⟨m, by rw [hacts]; rfl, ⟨hw', fun k => ?_, h.command⟩, .refl m⟩
    rw [Complex.textOf_pushGap]
    exact h.buffers k
  · have hacts : g.actions c = [] := by
      cases k with
      | command => cases hk
      | stdin =>
        obtain rfl := List.singleton_inj.mp hk
        simp [Complex.actions, hb, classify]
      | stdout =>
        obtain rfl := List.singleton_inj.mp hk
        simp [Complex.actions, hb, classify]
    refine ⟨m, by rw [hacts]; rfl, ⟨hw', fun k' => ?_, ?_⟩, .refl m⟩
    · rw [Complex.textOf_redirect k' hnk]
      exact h.buffers k'
    · simpa [Complex.mask, hb] using h.command
  · have hacts : g.actions 38 = [6] := by simp [Complex.actions, hb, classify]
    refine ⟨{ m with command := some { command with connectionMask := .background } }, ?_,
      ⟨hw', h.buffers, rfl⟩, ⟨rfl, rfl, rfl, rfl⟩⟩
    rw [hacts]
    simp [runActions, action, bg, setMask, h.command]
    rfl
  · have hacts : g.actions c = [] := by simp [Complex.actions, hb]
    refine ⟨m, by rw [hacts]; rfl, ⟨hw', h.buffers, ?_⟩, .refl m⟩
    simpa [Complex.mask, hb] using h.command

/-! The end of a complex. -/

theorem redirectPath_holds {t : TextBuffer} {s : CString} (h : t.Holds s) (ss : Session) :
    redirectPath wordexp t none ss = .ok (expandPart wordexp s ss) := by
  unfold redirectPath expandPart
  rw [h.len]
  cases s with
  | nil => rfl
  | cons c s =>
    simp [TextBuffer.text_holds h]

theorem term_holds (wordexp : Wordexp) {addr : Nat} {mask : Connection}
    (h : m.Holds g { commandNew addr with connectionMask := mask })
    (hne : g.textOf .command ≠ []) :
    m.term wordexp =
      match g.finish wordexp addr mask m.session with
      | (none, ss) => .ok ({ m with session := ss }, true)
      | (some command, ss) =>
        .ok ({ m with queue := queueInsert m.queue command, command := none, session := ss },
          false) := by
  have hbuf : m.fsm.buffer.Holds ((g.textOf .command).take bufSize) := h.buffers .command
  have hin : m.fsm.stdin.Holds ((g.textOf .stdin).take bufSize) := h.buffers .stdin
  have hout : m.fsm.stdout.Holds ((g.textOf .stdout).take bufSize) := h.buffers .stdout
  have hpos : 0 < ((g.textOf .command).take bufSize).length := by
    rw [List.length_take]
    have hlen := List.length_pos_of_ne_nil hne
    have hsize : 0 < bufSize := by decide
    omega
  unfold term Complex.finish
  rw [hbuf.len]
  simp only [if_pos hpos, TextBuffer.text_holds hbuf, h.command]
  cases hglob : expandGlob wordexp
      (expandAliasIn ((g.textOf .command).take bufSize) m.session).1
      (expandAliasIn ((g.textOf .command).take bufSize) m.session).2 with
  | mk words ss =>
    cases words with
    | none =>
      simp only [bind, Except.bind, hglob]
      rfl
    | some words =>
      simp only [bind, Except.bind, hglob, insertCommand, commandNew, redirectPath_holds hin,
        redirectPath_holds hout]
      rfl

theorem term_blank (wordexp : Wordexp) (h : m.Holds g command) (hne : g.textOf .command = []) :
    m.term wordexp = .ok (m, false) := by
  have hbuf := (h.buffers .command).len
  rw [hne] at hbuf
  have hlen : m.fsm.buffer.len = some 0 := by simpa [Params.bufferOf] using hbuf
  simp [term, hlen]

/-! Turns of the loop. -/

/-- A turn whose actions do not break and that does not fail moves on to the next byte. -/
theorem turn_next {s s' : ParserState} {acts : List Nat} (hcs : m.fsm.cs = s.code)
    (hs : s ∈ ParserState.live) (hstep : s.step (classify c) = (s', acts)) (hs' : s' ≠ .error)
    (hrun : runActions wordexp c acts (m.setCs s'.code) = .ok (m', false))
    (hcs' : m'.fsm.cs = s'.code) :
    m.turn wordexp c = .ok ({ m' with p := m'.p + 1 }, false) := by
  have hne : s'.code ≠ parserError := fun h => hs' (ParserState.code_eq_zero_iff.mp h)
  unfold turn
  rw [hcs, ParserState.parserNext_eq hs, hstep]
  simp only [hrun, bind, Except.bind, hcs', if_neg hne]
  rfl

theorem turn_break {s s' : ParserState} {acts : List Nat} (hcs : m.fsm.cs = s.code)
    (hs : s ∈ ParserState.live) (hstep : s.step (classify c) = (s', acts))
    (hrun : runActions wordexp c acts (m.setCs s'.code) = .ok (m', true)) :
    m.turn wordexp c = .ok ({ m' with p := m'.p + 1 }, true) := by
  unfold turn
  rw [hcs, ParserState.parserNext_eq hs, hstep]
  simp only [hrun, bind, Except.bind]
  rfl

theorem turn_error {s : ParserState} (hcs : m.fsm.cs = s.code) (hs : s ∈ ParserState.live)
    (hstep : s.step (classify c) = (.error, [])) :
    m.turn wordexp c = .ok (m.setCs parserError, true) := by
  unfold turn
  rw [hcs, ParserState.parserNext_eq hs, hstep]
  rfl

/-- A byte that neither ends the line nor separates two complexes. -/
def Plain (c : UInt8) : Prop := classify c ≠ .nul ∧ classify c ≠ .seq ∧ classify c ≠ .pipe

/-- The machine reads a complex. -/
structure Reads (m : Machine) (first : Bool) (g : Complex) (addr : Nat) : Prop where
  holds : m.Holds g { commandNew addr with connectionMask := g.mask }
  cs : m.fsm.cs = (g.state first).code

theorem state_ne_error (first : Bool) (hw : g.WellFormed) : g.state first ≠ .error := by
  intro he
  have hlive := Complex.state_mem_live first hw
  rw [he] at hlive
  exact absurd hlive (by decide)

/-- One byte of a complex: taken in, or the end of the run. -/
theorem turn_reads (wordexp : Wordexp) {first : Bool} {addr : Nat} (h : m.Reads first g addr)
    (hc : Plain c) :
    match g.push c with
    | some g' => ∃ m', m.turn wordexp c = .ok (m', false) ∧ m'.Reads first g' addr ∧
        m'.queue = m.queue ∧ m'.session = m.session
    | none => ∃ m', m.turn wordexp c = .ok (m', true) ∧ m'.fsm.cs = parserError ∧
        m'.session = m.session := by
  have hw := h.holds.wellFormed
  have hlive := Complex.state_mem_live first hw
  have hstep := Complex.state_push first hw hc
  cases hp : g.push c with
  | none =>
    rw [hp] at hstep
    exact ⟨_, turn_error h.cs hlive hstep, rfl, rfl⟩
  | some g' =>
    rw [hp] at hstep
    obtain ⟨m', hrun, hh, hf⟩ := runActions_push wordexp (commandNew addr)
      (h.holds.setCs (g'.state first).code) hp
    refine ⟨{ m' with p := m'.p + 1 },
      turn_next h.cs hlive hstep (state_ne_error first hh.wellFormed)
      hrun hf.cs, ⟨⟨hh.wellFormed, hh.buffers, hh.command⟩, hf.cs⟩, hf.queue, hf.session⟩

/-- A run of bytes of a complex. -/
theorem exec_scan (wordexp : Wordexp) {first : Bool} {addr : Nat} {u : CString}
    (h : m.Reads first g addr) (hu : ∀ c ∈ u, Plain c) (rest : CString) :
    match g.scan u with
    | some g' => ∃ m' : Machine, m.exec wordexp (u ++ rest) = m'.exec wordexp rest ∧
        m'.Reads first g' addr ∧ m'.queue = m.queue ∧ m'.session = m.session
    | none => ∃ m' : Machine, m.exec wordexp (u ++ rest) = .ok m' ∧ m'.fsm.cs = parserError ∧
        m'.session = m.session := by
  induction u generalizing m g with
  | nil => exact ⟨m, rfl, h, rfl, rfl⟩
  | cons c u ih =>
    have hturn := turn_reads wordexp h (hu c List.mem_cons_self)
    rw [Complex.scan]
    cases hp : g.push c with
    | none =>
      rw [hp] at hturn
      obtain ⟨m', hm, hcs, hss⟩ := hturn
      exact ⟨m', by simp [exec, hm]; rfl, hcs, hss⟩
    | some g' =>
      rw [hp] at hturn
      obtain ⟨m', hm, hr, hq, hss⟩ := hturn
      have hexec : m.exec wordexp (c :: u ++ rest) = m'.exec wordexp (u ++ rest) := by
        simp [exec, hm]
        rfl
      have hrest := ih hr fun d hd => hu d (List.mem_cons_of_mem _ hd)
      simp only
      rw [hexec, ← hq, ← hss]
      exact hrest

end Machine

end Redshell
