import Redshell.Truncation

/-! The alias expansions of a parse: whether they fit their buffers, and what a line means then. -/
namespace Redshell

/-- The alias expansion of the action, if it makes one, has room in its buffers. -/
def ActionRun.ExpansionFits (a : ActionRun) : Prop :=
  ∀ text, a.readText = some text → Redshell.ExpansionFits a.before.session.aliases text

/-- The alias expansion of a segment's command fits, from its values and the arguments that each of
them and the command leave. -/
def SegmentFits (d : Dictionary) (u : CString) : Prop :=
  ∃ values, Leads d.find [] (Cut.before isBlank (commandText u)) values ∧
    Fits (Cut.onward isBlank (commandText u)).length 0 values

namespace Machine

variable {wordexp : Wordexp} {m m' : Machine} {g : Complex} {c : UInt8} {code addr : Nat}
  {acts : List Nat} {rest u : List UInt8} {done : Machine × Bool} {afterNew : Bool}
  {d : Dictionary}

/-! No action changes the aliases that the parse started with. -/

theorem redirectPath_aliases {t : TextBuffer} {path : Option CString} {ss : Session}
    {out : Option CString × Session} (hrun : redirectPath wordexp t path ss = .ok out) :
    out.2.aliases = ss.aliases := by
  unfold redirectPath at hrun
  split at hrun
  · cases hrun
  · split at hrun
    · obtain ⟨text, _, hrun⟩ := Fault.ok_of_bind hrun
      cases hrun
      rfl
    · cases hrun
      rfl

theorem insertCommand_aliases {command : Command} {words : List CString}
    (hrun : m.insertCommand wordexp command words = .ok m') :
    m'.session.aliases = m.session.aliases := by
  obtain ⟨stdin, hstdin, hrun⟩ := Fault.ok_of_bind hrun
  obtain ⟨stdout, hstdout, hrun⟩ := Fault.ok_of_bind hrun
  cases hrun
  exact (redirectPath_aliases hstdout).trans (redirectPath_aliases hstdin)

theorem term_aliases (hrun : m.term wordexp = .ok done) (hd : m.session.aliases = d.toAliases) :
    done.1.session.aliases = d.toAliases := by
  unfold term at hrun
  split at hrun
  · cases hrun
  · split at hrun
    · obtain ⟨text, _, hrun⟩ := Fault.ok_of_bind hrun
      rw [expandAliasIn_eq hd] at hrun
      dsimp only at hrun
      have haliases : ∀ words ss, expandGlob wordexp (expandAlias d.toAliases text).1 m.session =
          (words, ss) → ss.aliases = d.toAliases := by
        intro words ss hglob
        cases hglob
        exact hd
      split at hrun
      · next hglob =>
        cases hrun
        exact haliases _ _ hglob
      · cases hrun
      · next hglob _ =>
        obtain ⟨m₁, hinsert, hrun⟩ := Fault.ok_of_bind hrun
        cases hrun
        exact (insertCommand_aliases hinsert).trans (haliases _ _ hglob)
    · cases hrun
      exact hd

theorem action_aliases (hrun : m.action wordexp c code = .ok done)
    (hd : m.session.aliases = d.toAliases) : done.1.session.aliases = d.toAliases := by
  cases action_acted hrun with
  | append happ => exact hd
  | appendIn happ => exact hd
  | appendOut happ => exact hd
  | new hnew hp =>
    obtain ⟨buffer, _, hnew⟩ := Fault.ok_of_bind hnew
    obtain ⟨stdout, _, hnew⟩ := Fault.ok_of_bind hnew
    obtain ⟨stdin, _, hnew⟩ := Fault.ok_of_bind hnew
    cases hnew
    exact hd
  | term hterm hp hfsm => exact term_aliases hterm hd
  | setMask hcode hmask hp hfsm =>
    unfold setMask at hmask
    split at hmask
    · cases hmask
    · cases hmask
      exact hd
  | none hcode => exact hd

theorem runActions_aliases (hrun : m.runActions wordexp c acts = .ok done)
    (hd : m.session.aliases = d.toAliases) : done.1.session.aliases = d.toAliases := by
  induction acts generalizing m with
  | nil =>
    cases hrun
    exact hd
  | cons code acts ih =>
    obtain ⟨⟨m₁, left⟩, hrun₁, hrun⟩ := Fault.ok_of_bind hrun
    have hd₁ := action_aliases hrun₁ hd
    cases left with
    | true =>
      cases hrun
      exact hd₁
    | false => exact ih hrun hd₁

theorem turn_aliases (hrun : m.turn wordexp c = .ok done) (hd : m.session.aliases = d.toAliases) :
    done.1.session.aliases = d.toAliases := by
  obtain ⟨done₁, hrun₁, hrun⟩ := Fault.ok_of_bind hrun
  have hd₁ := runActions_aliases hrun₁ hd
  dsimp only at hrun
  split at hrun
  · cases hrun
    exact hd₁
  · split at hrun <;> cases hrun <;> exact hd₁

/-- The actions of a transition all find the same aliases. -/
theorem actionRuns_aliases (hd : m.session.aliases = d.toAliases) :
    ∀ a ∈ m.actionRuns wordexp c afterNew acts, a.before.session.aliases = d.toAliases := by
  induction acts generalizing m afterNew with
  | nil => exact fun a ha => by cases ha
  | cons code acts ih =>
    rw [actionRuns, List.forall_mem_cons]
    refine ⟨hd, ?_⟩
    split
    · next hrun => exact ih (action_aliases hrun hd)
    · exact fun a ha => by cases ha

theorem execRuns_aliases (hd : m.session.aliases = d.toAliases) :
    ∀ a ∈ m.execRuns wordexp afterNew rest, a.before.session.aliases = d.toAliases := by
  induction rest generalizing m afterNew with
  | nil => exact fun a ha => by cases ha
  | cons c rest ih =>
    rw [execRuns, List.forall_mem_append]
    refine ⟨actionRuns_aliases hd, ?_⟩
    split
    · next hturn => exact ih (turn_aliases hturn hd)
    · exact fun a ha => by cases ha

/-! A blank line. -/

theorem readText_empty (h : m.fsm.buffer.len = some 0) : m.readText = none := if_pos h

/-- At the end of a line that was blank so far `term` finds no text. -/
theorem execRuns_nul
    (hcs : m.fsm.cs = ParserState.start.code ∨ m.fsm.cs = ParserState.firstLead.code)
    (hlen : m.fsm.buffer.len = some 0) :
    (m.execRuns wordexp afterNew [0]).filterMap ActionRun.readText = [] := by
  have hnext : parserNext m.fsm.cs 0 = (ParserState.final.code, [4]) := by
    rcases hcs with hcs | hcs <;> rw [hcs] <;> decide
  have hread : (m.setCs ParserState.final.code).readText = none := readText_empty hlen
  rw [execRuns, hnext, List.filterMap_append, actionRuns_term List.not_mem_nil, hread]
  split <;> rfl

/-- Blanks before the first text of a line are not taken in. -/
theorem execRuns_blank (h : m.Reads true g addr) (hkinds : g.kinds = [.command])
    (hb : g.background = none) (htext : ¬ g.Complete) (hu : ∀ c ∈ u, classify c = .space) :
    (m.execRuns wordexp afterNew (u ++ [0])).filterMap ActionRun.readText = [] := by
  induction u generalizing m g afterNew with
  | nil =>
    have hcs : m.fsm.cs = ParserState.firstLead.code := by
      rw [h.cs, Complex.state, hb, hkinds, decide_eq_false htext]
      rfl
    have hnone : g.textOf .command = [] := by
      have hkind : g.current.kind = .command := (List.cons.inj hkinds).1
      rw [← hkind, g.textOf_current]
      exact not_not.mp htext
    have hlen := (h.holds.buffers .command).len
    rw [hnone] at hlen
    exact execRuns_nul (.inr hcs) hlen
  | cons c u ih =>
    obtain ⟨hc, hu⟩ := List.forall_mem_cons.mp hu
    have hplain : Plain c := by
      rw [Plain, hc]
      decide
    have hpush : g.push c = some (g.pushGap c) := by
      rw [Complex.push, hb]
      dsimp only
      rw [hc]
      exact if_pos (not_not.mp htext)
    have hstep := Complex.state_push true h.holds.wellFormed hplain
    have hturn := turn_reads wordexp h hplain
    rw [hpush] at hstep hturn
    obtain ⟨m₁, hturn, hreads, _⟩ := hturn
    have hlive := Complex.state_mem_live true h.holds.wellFormed
    obtain ⟨afterNew', hruns⟩ := execRuns_turn h.cs hlive hstep hturn afterNew (u ++ [0])
    rw [List.cons_append, hruns, actionRuns_silent (term_not_mem_actions g c)]
    exact ih hreads hkinds hb htext hu

end Machine

variable {d : Dictionary} {f : CString → Option (List CString)} {calls : List ExpandCall}
  {created : Nat} {line : CString} {wordexp : Wordexp} {ss : Session}

theorem readTexts_blank (hblank : ∀ c ∈ line, classify c = .space) :
    readTexts wordexp ss line = [] := by
  rw [readTexts, parseRuns]
  cases line with
  | nil => exact Machine.execRuns_nul (.inl rfl) rfl
  | cons c u =>
    obtain ⟨hc, hu⟩ := List.forall_mem_cons.mp hblank
    have hplain : Machine.Plain c := by
      rw [Machine.Plain, hc]
      decide
    have hpush : Complex.empty.push c = some (Complex.empty.pushGap c) := by
      simp [Complex.push, Complex.empty, hc]
    have hstart : (parseStart ss).AtPiece none := ⟨rfl, rfl⟩
    have hstep := (Machine.step_atPiece hplain).1
    have hturn := Machine.turn_atPiece wordexp hstart hplain
    rw [hpush] at hstep hturn
    obtain ⟨m₁, hturn, hreads, _⟩ := hturn
    obtain ⟨afterNew, hruns⟩ := Machine.execRuns_turn (s := .start) rfl (by decide) hstep hturn
      false (u ++ [0])
    have hacts : 4 ∉ 3 :: Complex.empty.actions c := by
      rw [List.mem_cons, not_or]
      exact ⟨by decide, Machine.term_not_mem_actions _ c⟩
    rw [List.cons_append, hruns, Machine.actionRuns_silent hacts]
    exact Machine.execRuns_blank hreads rfl rfl (not_not.mpr rfl) hu

/-- The expansions of a parse all start from the aliases of its session. -/
theorem forall_expansionFits_iff :
    (∀ a ∈ parseRuns wordexp ⟨d.toAliases, calls, created⟩ line, a.ExpansionFits) ↔
      ∀ text ∈ readTexts wordexp ⟨d.toAliases, calls, created⟩ line,
        ExpansionFits d.toAliases text := by
  have haliases : ∀ a ∈ parseRuns wordexp ⟨d.toAliases, calls, created⟩ line,
      a.before.session.aliases = d.toAliases := Machine.execRuns_aliases rfl
  constructor
  · intro h text htext
    obtain ⟨a, ha, hread⟩ := List.mem_filterMap.mp htext
    rw [← haliases a ha]
    exact h a ha text hread
  · intro h a ha text hread
    rw [haliases a ha]
    exact h text (List.mem_filterMap.mpr ⟨a, ha, hread⟩)

/-- A line of the grammar whose expansions succeed is read segment by segment. -/
theorem readTexts_segments (hline : ∀ c ∈ line, c ≠ 0) (hmain : line ∈ mainRule)
    (hamp : ¬ AmpPipe line) (hf : ∀ seg ∈ segments line, (f (expandedText d seg.1)).isSome) :
    readTexts (fun _ => f) ⟨d.toAliases, calls, created⟩ line =
      (segmentTexts line).map commandText := by
  by_cases hblank : ∀ c ∈ line, classify c = .space
  · rw [readTexts_blank hblank, segmentTexts, segments, if_pos hblank]
    rfl
  · obtain ⟨r, hr, hqueue⟩ := parseInput_meaning d f calls created line hline hmain hamp hf
    have hreads := (parseInput_handsOn hline (texts_complex_iff.mpr ⟨hmain, hblank⟩) hr).1
    have hlen : (texts line).length = r.queue.length := by
      rw [← segmentTexts_eq hblank, segmentTexts, List.length_map, hqueue, List.length_mapIdx]
    rw [hreads, List.take_of_length_le (by omega), segmentTexts_eq hblank]

/-- A line of the grammar, without `&` before `|`, gives the commands of its segments, with every
text that is written for them in its buffer, exactly when the alias expansion of every segment
fits. -/
theorem parseInput_means_iff (d : Dictionary) (f : CString → Option (List CString))
    (calls : List ExpandCall) (created : Nat) (line : CString) (hline : ∀ c ∈ line, c ≠ 0)
    (hmain : line ∈ mainRule) (hamp : ¬ AmpPipe line)
    (hf : ∀ seg ∈ segments line, (f (expandedText d seg.1)).isSome) :
    ∃ r, parseInput (fun _ => f) ⟨d.toAliases, calls, created⟩ line = .ok r ∧
      ((∀ a ∈ parseRuns (fun _ => f) ⟨d.toAliases, calls, created⟩ line, a.ExpansionFits) ∧
          r.queue = ((segments line).mapIdx fun i seg => segmentCommand d f (created + i) seg) ↔
        ∀ seg ∈ segments line, SegmentFits d seg.1) := by
  obtain ⟨r, hr, hqueue⟩ := parseInput_meaning d f calls created line hline hmain hamp hf
  refine ⟨r, hr, ?_⟩
  have hcut : ∀ u, (commandText u).length ≤ bufSize := fun u => List.length_take_le _ _
  rw [and_iff_left hqueue, forall_expansionFits_iff, readTexts_segments hline hmain hamp hf,
    segmentTexts, List.map_map, List.forall_mem_map]
  exact forall₂_congr fun seg _ => expansionFits_iff (hcut seg.1)

/-- A pipeline with a redirection, then another command. -/
theorem parseInput_means_iff_ls :
    ∃ r, parseInput (fun _ text => some [text]) ⟨Dictionary.empty.toAliases, [], 0⟩
        (bytes "ls | wc > out; pwd") = .ok r ∧
      ((∀ a ∈ parseRuns (fun _ text => some [text]) ⟨Dictionary.empty.toAliases, [], 0⟩
          (bytes "ls | wc > out; pwd"), a.ExpansionFits) ∧
          r.queue = ((segments (bytes "ls | wc > out; pwd")).mapIdx fun i seg =>
            segmentCommand Dictionary.empty (fun text => some [text]) (0 + i) seg) ↔
        ∀ seg ∈ segments (bytes "ls | wc > out; pwd"), SegmentFits Dictionary.empty seg.1) := by
  refine parseInput_means_iff Dictionary.empty (fun text => some [text]) [] 0 _ (by decide +kernel)
    (by decide +kernel) ?_ fun _ _ => rfl
  rintro ⟨a, blank, b, _, he⟩
  have hmem : 38 ∈ bytes "ls | wc > out; pwd" := by
    rw [he]
    simp
  exact absurd hmem (by decide)

/-- The line that is an alias of 1000 bytes with 30 more does not fit. -/
theorem parseInput_overflows :
    ¬ ∀ (d : Dictionary) (f : CString → Option (List CString)) (calls : List ExpandCall)
      (created : Nat) (line : CString), (∀ c ∈ line, c ≠ 0) → line ∈ mainRule →
      ¬ AmpPipe line → (∀ seg ∈ segments line, (f (expandedText d seg.1)).isSome) →
      ∃ r, parseInput (fun _ => f) ⟨d.toAliases, calls, created⟩ line = .ok r ∧
        (∀ a ∈ parseRuns (fun _ => f) ⟨d.toAliases, calls, created⟩ line, a.ExpansionFits) ∧
        r.queue = (segments line).mapIdx fun i seg => segmentCommand d f (created + i) seg := by
  intro hall
  have hamp : ¬ AmpPipe longCommand := by
    rintro ⟨a, blank, b, _, he⟩
    have hmem : 38 ∈ longCommand := by
      rw [he]
      simp
    exact absurd hmem (by decide)
  have hline : ∀ c ∈ longCommand, c ≠ 0 := by decide +kernel
  have hmain : longCommand ∈ mainRule := by decide +kernel
  obtain ⟨r, _, hfits, _⟩ := hall longAlias (fun text => some [text]) [] 0 longCommand hline hmain
    hamp fun _ _ => rfl
  rw [forall_expansionFits_iff, readTexts_segments hline hmain hamp fun _ _ => rfl] at hfits
  have htexts : (segmentTexts longCommand).map commandText = [longCommand] := by decide +kernel
  rw [htexts, List.forall_mem_singleton] at hfits
  exact longCommand_not_fits ((expansionFits_iff (by decide)).mp hfits)

end Redshell
