import Redshell.ParserActions
import Redshell.Queued

/-! The texts that a parse reads from its arrays and hands on to be expanded. -/
namespace Redshell

/-- The text that `term` finds in `buffer`, none when it is empty. -/
def Machine.readText (m : Machine) : Option CString :=
  if m.fsm.buffer.len = some 0 then none else m.fsm.buffer.text.toOption

/-- The text that the action makes a command of. -/
def ActionRun.readText (a : ActionRun) : Option CString :=
  if a.code = 4 then a.before.readText else none

/-- The texts that `parseInput` makes commands of. -/
def readTexts (wordexp : Wordexp) (ss : Session) (line : CString) : List CString :=
  (parseRuns wordexp ss line).filterMap ActionRun.readText

/-- The texts of the calls since `calls`, the oldest first, each with whether it is a command's. -/
def Parse.handed (r : Parse) (calls : List ExpandCall) : List (Bool × CString) :=
  (r.session.calls.take (r.session.calls.length - calls.length)).reverse.map fun call =>
    (call.glob, call.text)

/-- What is handed on of a list: all of its first elements, so many, and the start of the next. -/
def handedOn {α β : Type} (command : α → β) (redirections : α → List β) : Nat → List α → List β
  | _, [] => []
  | 0, a :: _ => [command a]
  | n + 1, a :: as => command a :: (redirections a ++ handedOn command redirections n as)

/-- The redirections of a segment, each with its text. -/
def redirectCalls (text : UInt8 → CString → CString) (u : CString) : List (Bool × CString) :=
  (if 60 ∈ u then [(false, text 60 u)] else []) ++ if 62 ∈ u then [(false, text 62 u)] else []

/-- The calls since another session. -/
def Session.Hands (ss ss' : Session) (handed : List (Bool × CString)) : Prop :=
  ∃ calls, ss'.calls = calls ++ ss.calls ∧
    calls.reverse.map (fun call => (call.glob, call.text)) = handed

/-- The loop goes through the segments: it queues the commands of some of them, reads their texts
and the next one, and hands on what it read. -/
def Machine.HandsOn (wordexp : Wordexp) (d : Dictionary) (m : Machine) (rest : List UInt8)
    (us : List CString) : Prop :=
  ∃ m' n, m.exec wordexp rest = .ok m' ∧ m'.fsm.cs ≠ parserError ∧
    m'.queue.length = m.queue.length + n ∧
    (∀ afterNew, (m.execRuns wordexp afterNew rest).filterMap ActionRun.readText =
      (us.take (n + 1)).map commandText) ∧
    m.session.Hands m'.session
      (handedOn (fun u => (true, expandedText d u)) (redirectCalls redirectText) n us)

variable {wordexp : Wordexp} {ss ss' ss'' : Session} {handed handed' : List (Bool × CString)}
  {g : Complex} {k : Kind} {d : Dictionary} {addr : Nat} {mask : Connection}

/-! The calls of one complex. -/

namespace Session

theorem Hands.of_eq (h : ss'.calls = ss.calls) : ss.Hands ss' [] := ⟨[], h, rfl⟩

theorem Hands.trans (h : ss.Hands ss' handed) (h' : ss'.Hands ss'' handed') :
    ss.Hands ss'' (handed ++ handed') := by
  obtain ⟨calls, hcalls, rfl⟩ := h
  obtain ⟨calls', hcalls', rfl⟩ := h'
  exact ⟨calls' ++ calls, by rw [hcalls', hcalls, List.append_assoc], by simp⟩

theorem hands_callWordexp (glob : Bool) (text : CString) :
    ss.Hands (callWordexp wordexp glob text ss).2 [(glob, text)] :=
  ⟨[⟨glob, text, wordexp ss.calls.length text⟩], rfl, rfl⟩

end Session

/-- The text of a part is handed on when its operator is there. -/
theorem expandPart_hands {c : UInt8} (hc : [c] = k.operator) (hw : g.WellFormed)
    (hcomp : g.Complete) :
    ss.Hands (expandPart wordexp ((g.textOf k).take bufSize) ss).2
      (if c ∈ g.render then [(false, redirectText c g.render)] else []) := by
  have hnil := take_textOf_eq_nil_iff hc hw hcomp
  rw [expandPart]
  by_cases hm : c ∈ g.render
  · have hk := (Complex.mem_render_iff hc hw hcomp).mp hm
    rw [if_pos hm, if_neg fun h => hnil.mp h hm, Complex.redirectText_render hc hw hcomp hk]
    exact Session.hands_callWordexp false _
  · rw [if_neg hm, if_pos (hnil.mpr hm)]
    exact .of_eq rfl

/-- A complex hands on the text of its command, and then those of its redirections. -/
theorem finish_hands (wordexp : Wordexp) (hd : ss.aliases = d.toAliases) (hw : g.WellFormed)
    (hcomp : g.Complete) (addr : Nat) (mask : Connection) :
    match g.finish wordexp addr mask ss with
    | (none, ss') => ss.Hands ss' [(true, expandedText d g.render)]
    | (some _, ss') => ss'.aliases = d.toAliases ∧
        ss.Hands ss' ((true, expandedText d g.render) :: redirectCalls redirectText g.render) := by
  have hin : [60] = Kind.stdin.operator := rfl
  have hout : [62] = Kind.stdout.operator := rfl
  have htmp := expandAliasIn_eq hd ((g.textOf .command).take bufSize)
  rw [← Complex.commandText_render hw hcomp, ← expandedText] at htmp
  have hglob : ss.Hands (callWordexp wordexp true (expandedText d g.render) ss).2
      [(true, expandedText d g.render)] := Session.hands_callWordexp true _
  dsimp only [Complex.finish]
  rw [← Complex.commandText_render hw hcomp, htmp]
  dsimp only [expandGlob]
  generalize hcall : callWordexp wordexp true (expandedText d g.render) ss = called at hglob ⊢
  obtain ⟨words, called⟩ := called
  cases words with
  | none => exact hglob
  | some words =>
    have haliases : ss.aliases = called.aliases := congrArg (·.2.aliases) hcall
    refine ⟨?_, ?_⟩
    · rw [(expandPart_snd _).1, (expandPart_snd _).1, ← haliases, hd]
    · exact hglob.trans ((expandPart_hands hin hw hcomp).trans (expandPart_hands hout hw hcomp))

/-! The texts read in one turn. -/

namespace Machine

variable {m m' : Machine} {c : UInt8} {acts : List Nat} {rest u : List UInt8} {us : List CString}
  {s s' : ParserState} {done : Machine × Bool} {afterNew first : Bool} {pending : Option Pending}
  {command : Command}

theorem readText_holds (h : m.Holds g command) (hcomp : g.Complete) :
    m.readText = some (commandText g.render) := by
  have hbuf : m.fsm.buffer.Holds ((g.textOf .command).take bufSize) := h.buffers .command
  have hne := textOf_command_ne_nil h.wellFormed hcomp
  have hlen : m.fsm.buffer.len ≠ some 0 := by
    rw [hbuf.len, List.length_take]
    have hpos := List.length_pos_of_ne_nil hne
    have hsize : 0 < bufSize := by decide
    simp only [ne_eq, Option.some.injEq]
    omega
  rw [readText, if_neg hlen, TextBuffer.text_holds hbuf,
    Complex.commandText_render h.wellFormed hcomp]
  rfl

/-- Actions other than `term` read nothing. -/
theorem actionRuns_silent (hacts : 4 ∉ acts) :
    (m.actionRuns wordexp c afterNew acts).filterMap ActionRun.readText = [] := by
  induction acts generalizing m afterNew with
  | nil => rfl
  | cons code acts ih =>
    rw [List.mem_cons, not_or] at hacts
    have hcode : ActionRun.readText ⟨code, afterNew, m, m.action wordexp c code⟩ = none :=
      if_neg fun h => hacts.1 h.symm
    rw [actionRuns, List.filterMap_cons_none hcode]
    split
    · exact ih hacts.2
    · rfl

theorem actionRuns_term (hacts : 4 ∉ acts) :
    (m.actionRuns wordexp c afterNew (4 :: acts)).filterMap ActionRun.readText =
      m.readText.toList := by
  obtain ⟨runs, hruns, hsilent⟩ : ∃ runs, m.actionRuns wordexp c afterNew (4 :: acts) =
      ⟨4, afterNew, m, m.action wordexp c 4⟩ :: runs ∧
        runs.filterMap ActionRun.readText = [] := by
    rw [actionRuns]
    refine ⟨_, rfl, ?_⟩
    split
    · exact actionRuns_silent hacts
    · rfl
  have hterm : ActionRun.readText ⟨4, afterNew, m, m.action wordexp c 4⟩ = m.readText := if_pos rfl
  rw [hruns, List.filterMap_cons, hterm, hsilent]
  cases m.readText <;> rfl

/-- The texts read in a turn come before those read after it. -/
theorem execRuns_turn (hcs : m.fsm.cs = s.code) (hs : s ∈ ParserState.live)
    (hstep : s.step (classify c) = (s', acts)) (hturn : m.turn wordexp c = .ok done)
    (afterNew : Bool) (rest : List UInt8) : ∃ afterNew',
    (m.execRuns wordexp afterNew (c :: rest)).filterMap ActionRun.readText =
      ((m.setCs s'.code).actionRuns wordexp c afterNew acts).filterMap ActionRun.readText ++
        if done.2 then [] else
          (done.1.execRuns wordexp afterNew' rest).filterMap ActionRun.readText := by
  have hnext := ParserState.parserNext_eq hs c
  rw [hstep, ← hcs] at hnext
  refine ⟨afterNew || acts.contains 3, ?_⟩
  rw [execRuns_cons hturn, hnext, List.filterMap_append]
  obtain ⟨m', left⟩ := done
  cases left <;> rfl

/-! The parts of a run. -/

/-- A turn that does not run `term`. -/
theorem HandsOn.silent (hcs : m.fsm.cs = s.code) (hs : s ∈ ParserState.live)
    (hstep : s.step (classify c) = (s', acts)) (hacts : 4 ∉ acts)
    (hturn : m.turn wordexp c = .ok (m', false)) (hqueue : m'.queue = m.queue)
    (hcalls : m'.session.calls = m.session.calls) (h : m'.HandsOn wordexp d rest us) :
    m.HandsOn wordexp d (c :: rest) us := by
  obtain ⟨m'', n, hexec, hne, hlen, hreads, hhands⟩ := h
  refine ⟨m'', n, by rw [exec_cons rest hturn, hexec], hne, by rw [hlen, hqueue], ?_, ?_⟩
  · intro afterNew
    obtain ⟨afterNew', hruns⟩ := execRuns_turn hcs hs hstep hturn afterNew rest
    rw [hruns, actionRuns_silent hacts]
    exact hreads afterNew'
  · exact (Session.Hands.of_eq hcalls).trans hhands

/-- A turn in which `term` queues a command. -/
theorem HandsOn.queued (hcs : m.fsm.cs = s.code) (hs : s ∈ ParserState.live)
    (hstep : s.step (classify c) = (s', 4 :: acts)) (hacts : 4 ∉ acts)
    (hturn : m.turn wordexp c = .ok (m', false)) (hread : m.readText = some (commandText u))
    (hqueue : m'.queue.length = m.queue.length + 1)
    (hhands : m.session.Hands m'.session
      ((true, expandedText d u) :: redirectCalls redirectText u))
    (h : m'.HandsOn wordexp d rest us) : m.HandsOn wordexp d (c :: rest) (u :: us) := by
  obtain ⟨m'', n, hexec, hne, hlen, hreads, hhands'⟩ := h
  refine ⟨m'', n + 1, by rw [exec_cons rest hturn, hexec], hne, by omega, ?_, ?_⟩
  · intro afterNew
    obtain ⟨afterNew', hruns⟩ := execRuns_turn hcs hs hstep hturn afterNew rest
    have hread' : (m.setCs s'.code).readText = some (commandText u) := hread
    rw [hruns, actionRuns_term hacts, hread', List.take_succ_cons, List.map_cons]
    exact congrArg _ (hreads afterNew')
  · exact hhands.trans hhands'

/-- A turn in which the expansion of a command fails. -/
theorem HandsOn.failed (hcs : m.fsm.cs = s.code) (hs : s ∈ ParserState.live)
    (hstep : s.step (classify c) = (s', 4 :: acts)) (hacts : 4 ∉ acts)
    (hturn : m.turn wordexp c = .ok (m', true)) (hread : m.readText = some (commandText u))
    (hne : m'.fsm.cs ≠ parserError) (hqueue : m'.queue = m.queue)
    (hhands : m.session.Hands m'.session [(true, expandedText d u)]) (rest : List UInt8)
    (us : List CString) : m.HandsOn wordexp d (c :: rest) (u :: us) := by
  refine ⟨m', 0, exec_stop rest hturn, hne, by rw [hqueue]; rfl, ?_, hhands⟩
  intro afterNew
  obtain ⟨_, hruns⟩ := execRuns_turn hcs hs hstep hturn afterNew rest
  have hread' : (m.setCs s'.code).readText = some (commandText u) := hread
  rw [hruns, actionRuns_term hacts, hread']
  rfl

theorem term_not_mem_actions (g : Complex) (c : UInt8) : 4 ∉ g.actions c := by
  have happend : ∀ k, 4 ∉ [Complex.appendCode k] := by
    intro k
    cases k <;> decide
  unfold Complex.actions
  split
  · exact List.not_mem_nil
  · split
    · exact happend _
    · split
      · exact happend _
      · exact List.not_mem_nil
    · decide
    · exact List.not_mem_nil

/-- The bytes of a complex are only taken in. -/
theorem HandsOn.scan {g' : Complex} (h : m.Reads first g addr) (hu : ∀ c ∈ u, Plain c)
    (hg : g.scan u = some g')
    (hnext : ∀ m' : Machine, m'.Reads first g' addr → m'.queue = m.queue →
      m'.session = m.session → m'.HandsOn wordexp d rest us) :
    m.HandsOn wordexp d (u ++ rest) us := by
  induction u generalizing m g with
  | nil =>
    cases hg
    exact hnext m h rfl rfl
  | cons c u ih =>
    obtain ⟨hc, hu⟩ := List.forall_mem_cons.mp hu
    have hstep := Complex.state_push first h.holds.wellFormed hc
    have hturn := turn_reads wordexp h hc
    rw [Complex.scan] at hg
    cases hp : g.push c with
    | none =>
      rw [hp] at hg
      cases hg
    | some g₁ =>
      rw [hp] at hg hstep hturn
      obtain ⟨m₁, hturn, hreads, hqueue, hss⟩ := hturn
      have hlive := Complex.state_mem_live first h.holds.wellFormed
      refine .silent h.cs hlive hstep (term_not_mem_actions g c) hturn hqueue
        (congrArg (·.calls) hss) ?_
      refine ih hreads hu hg fun m' hr hq hs => hnext m' hr (hq.trans hqueue) (hs.trans hss)

/-- The terminating NUL after a complex. -/
theorem handsOn_nul (h : m.Reads first g addr) (hcomp : g.Complete)
    (hd : m.session.aliases = d.toAliases) : m.HandsOn wordexp d [0] [g.render] := by
  have hw := h.holds.wellFormed
  obtain ⟨_, _, hnul⟩ := state_close hw first
  rw [if_pos (.inl hcomp)] at hnul
  have hreads : ∀ afterNew, (m.execRuns wordexp afterNew [0]).filterMap ActionRun.readText =
      [commandText g.render] := by
    intro afterNew
    have hnext := ParserState.parserNext_eq (Complex.state_mem_live first hw) 0
    rw [← h.cs, show (g.state first).step (classify 0) = (.final, [4]) from hnul] at hnext
    have hread : (m.setCs ParserState.final.code).readText = some (commandText g.render) :=
      readText_holds (h.holds.setCs _) hcomp
    rw [execRuns, hnext, List.filterMap_append, actionRuns_term List.not_mem_nil, hread]
    split <;> rfl
  obtain ⟨m', hexec, hagrees⟩ : ∃ m' : Machine, m.exec wordexp [0] = .ok m' ∧
      m'.Agrees (endLine wordexp first g addr m.queue m.session) := exec_nul h
  rw [endLine, if_pos hcomp] at hagrees
  have hfin := finish_hands wordexp hd hw hcomp addr g.mask
  cases hf : g.finish wordexp addr g.mask m.session with
  | mk made ss =>
    rw [hf] at hagrees hfin
    cases made with
    | none =>
      obtain ⟨hne, hqueue, rfl⟩ := hagrees
      exact ⟨m', 0, hexec, hne, by rw [hqueue]; rfl, hreads, hfin⟩
    | some command =>
      obtain ⟨hcs, hqueue, rfl⟩ := hagrees
      have hne : m'.fsm.cs ≠ parserError := by
        rw [hcs]
        decide
      refine ⟨m', 1, hexec, hne, by rw [hqueue, queueInsert, List.length_append]; rfl, hreads, ?_⟩
      rw [handedOn, handedOn, List.append_nil]
      exact hfin.2

/-- The first byte of a piece: what is pending is made a command, and the piece is read. -/
theorem handsOn_piece {tail : List UInt8} (h : m.AtPiece pending)
    (hd : m.session.aliases = d.toAliases) (hu : u ∈ complexRule) (hplain : ∀ c ∈ u, Plain c)
    (hnext : ∀ (m' : Machine) (first : Bool) (g : Complex) (addr : Nat), m'.Reads first g addr →
      g.Complete → g.render = u → m'.session.aliases = d.toAliases →
      m'.HandsOn wordexp d tail us) :
    m.HandsOn wordexp d (u ++ tail) ((pending.map fun p => p.complex.render).toList ++ us) := by
  obtain ⟨g, hg, hcomp⟩ := mem_complexRule_iff_scan.mp hu
  have hrender : g.render = u := (Complex.scan_render Complex.wellFormed_empty hg).1
  cases u with
  | nil => exact absurd hu nil_not_mem_complexRule
  | cons c u =>
    obtain ⟨hc, hplain⟩ := List.forall_mem_cons.mp hplain
    obtain ⟨hstart, hjoined⟩ := step_atPiece hc
    have hturn := turn_atPiece wordexp h hc
    rw [Complex.scan] at hg
    cases hp : Complex.empty.push c with
    | none =>
      rw [hp] at hg
      cases hg
    | some g₁ =>
      rw [hp] at hg hstart hjoined hturn
      have hread : ∀ (m₁ : Machine) (first : Bool) (addr : Nat), m₁.Reads first g₁ addr →
          m₁.session.aliases = d.toAliases → m₁.HandsOn wordexp d (u ++ tail) us :=
        fun m₁ first addr hr hd₁ => .scan hr hplain hg fun m' hr' _ hss =>
          hnext m' first g addr hr' hcomp hrender (hss ▸ hd₁)
      cases pending with
      | none =>
        obtain ⟨m₁, hturn, hr, hqueue, hss⟩ := hturn
        have hacts : 4 ∉ 3 :: Complex.empty.actions c := by
          simp [term_not_mem_actions]
        refine .silent h.1 (by decide) hstart hacts hturn ?_ (congrArg (·.calls) hss) ?_
        · rw [hqueue, List.append_nil]
        · exact hread m₁ _ _ hr (hss ▸ hd)
      | some p =>
        obtain ⟨hcs, hcomp', hholds⟩ := h
        have hacts : 4 ∉ 3 :: Complex.empty.actions c := by
          simp [term_not_mem_actions]
        have hfin := finish_hands wordexp hd hholds.wellFormed hcomp' p.addr p.mask
        have htext := readText_holds hholds hcomp'
        dsimp only [flush] at hturn
        cases hf : p.complex.finish wordexp p.addr p.mask m.session with
        | mk made ss =>
          rw [hf] at hturn hfin
          cases made with
          | none =>
            obtain ⟨m₁, hturn, hne, hqueue, rfl⟩ := hturn
            exact .failed hcs (by decide) hjoined hacts hturn htext hne hqueue hfin _ _
          | some command =>
            obtain ⟨m₁, hturn, hr, hqueue, hss⟩ := hturn
            refine .queued hcs (by decide) hjoined hacts hturn htext ?_ ?_ ?_
            · rw [hqueue, List.length_append]
              rfl
            · rw [hss]
              exact hfin.2
            · exact hread m₁ _ _ hr (by rw [hss]; exact hfin.1)

/-- A run over complexes reads their texts and hands them on. -/
theorem handsOn_pieces {rest : List (Connector × CString)} (h : m.AtPiece pending)
    (hd : m.session.aliases = d.toAliases) (hu : u ∈ complexRule)
    (hrest : ∀ p ∈ rest, p.2 ∈ complexRule) (hplain : ∀ c ∈ u, Plain c)
    (hplain' : ∀ p ∈ rest, ∀ c ∈ p.2, Plain c) :
    m.HandsOn wordexp d (u ++ (joinRest rest ++ [0]))
      ((pending.map fun p => p.complex.render).toList ++ u :: rest.map (·.2)) := by
  induction rest generalizing m u pending with
  | nil =>
    refine handsOn_piece h hd hu hplain fun m' first g addr hr hcomp hrender hd' => ?_
    rw [← hrender]
    exact handsOn_nul hr hcomp hd'
  | cons p rest ih =>
    obtain ⟨k, v⟩ := p
    obtain ⟨hv, hrest⟩ := List.forall_mem_cons.mp hrest
    obtain ⟨hvplain, hplain'⟩ := List.forall_mem_cons.mp hplain'
    refine handsOn_piece h hd hu hplain fun m' first g addr hr hcomp hrender hd' => ?_
    have hw := hr.holds.wellFormed
    have hturn := turn_connector wordexp hr k
    rw [if_pos hcomp] at hturn
    obtain ⟨m'', hturn, hat, hqueue, hss⟩ := hturn
    have hstep : (g.state first).step (classify k.byte) = (.joined, [k.actionCode]) := by
      obtain ⟨hseq, hpipe, _⟩ := state_close hw first
      cases k
      exacts [hseq.trans (if_pos hcomp), hpipe.trans (if_pos hcomp)]
    have hjoin : joinRest ((k, v) :: rest) ++ [0] =
        k.byte :: (v ++ (joinRest rest ++ [0])) := by simp [joinRest]
    rw [hjoin, ← hrender]
    refine .silent hr.cs (Complex.state_mem_live first hw) hstep (by cases k <;> decide) hturn
      hqueue (congrArg (·.calls) hss) ?_
    exact ih hat (hss ▸ hd') hv hrest hvplain hplain'

end Machine

/-- A line of complexes: the texts read are those of the queued commands and of the next one, and
each queued command has handed on all of its texts. -/
theorem parseInput_handsOn {calls : List ExpandCall} {created : Nat} {line : CString} {r : Parse}
    (hline : ∀ c ∈ line, c ≠ 0) (hus : ∀ u ∈ texts line, u ∈ complexRule)
    (hparse : parseInput wordexp ⟨d.toAliases, calls, created⟩ line = .ok r) :
    readTexts wordexp ⟨d.toAliases, calls, created⟩ line =
        ((texts line).take (r.queue.length + 1)).map commandText ∧
      r.handed calls = handedOn (fun u => (true, expandedText d u)) (redirectCalls redirectText)
        r.queue.length (texts line) := by
  obtain ⟨hfirst, hrest⟩ := splitLine_plain hline
  rw [texts, List.forall_mem_cons, List.forall_mem_map] at hus
  have hstart : (parseStart ⟨d.toAliases, calls, created⟩).AtPiece none := ⟨rfl, rfl⟩
  have hbytes : (splitLine line).1 ++ (joinRest (splitLine line).2 ++ [0]) = line ++ [0] := by
    rw [← List.append_assoc, joinRest_splitLine]
  obtain ⟨m, n, hexec, hne, hlen, hreads, entered, hcalls, hhanded⟩ :=
    Machine.handsOn_pieces hstart rfl hus.1 hus.2 hfirst hrest
  rw [hbytes] at hexec hreads
  have hr : r = parseEnd m := by
    rw [parseInput, hexec] at hparse
    exact (Except.ok.inj hparse).symm
  have hqueue : r.queue = m.queue := by
    rw [hr]
    exact if_neg hne
  have hn : r.queue.length = n := by
    rw [hqueue, hlen]
    exact Nat.zero_add n
  have hsession : r.session.calls = entered ++ calls := by
    rw [hr]
    exact hcalls
  refine ⟨?_, ?_⟩
  · rw [hn]
    exact hreads false
  · rw [hn, Parse.handed, hsession, List.length_append, Nat.add_sub_cancel, List.take_left']
    · exact hhanded
    · rfl

end Redshell
