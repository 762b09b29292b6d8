import Redshell.ParserFailure

/-! The calls of `wordexp` that reading a line makes, in their order. -/
namespace Redshell

/-- The call for a redirection, if its operator stands in the segment. -/
def pathCalls (wordexp : Wordexp) (n : Nat) (c : UInt8) (u : CString) : List ExpandCall :=
  if c ∈ u then [⟨false, redirectText c u, wordexp n (redirectText c u)⟩] else []

/-- The calls for a segment, after `n` others; none for its paths when that for its command
fails. -/
def segmentCalls (wordexp : Wordexp) (d : Dictionary) (n : Nat) (u : CString) : List ExpandCall :=
  ⟨true, expandedText d u, wordexp n (expandedText d u)⟩ ::
    if wordexp n (expandedText d u) = none then []
    else pathCalls wordexp (n + 1) 60 u ++
      pathCalls wordexp (n + 1 + if 60 ∈ u then 1 else 0) 62 u

/-- The calls for segments one after another: up to the first that is no complex or fails, and not
for one that is followed by a piece that no complex starts with. -/
def textCalls (wordexp : Wordexp) (d : Dictionary) : Nat → List CString → List ExpandCall
  | _, [] => []
  | n, u :: us =>
    if u ∈ complexRule ∧ us.head?.all opens = true then
      segmentCalls wordexp d n u ++
        if wordexp n (expandedText d u) = none then []
        else textCalls wordexp d (n + callCount u) us
    else []

variable {wordexp : Wordexp} {d : Dictionary} {ss ss' : Session} {g : Complex} {u : CString}
  {us : List CString} {c : UInt8} {k : Kind} {addr n : Nat} {mask : Connection}

theorem expandPart_log (hc : [c] = k.operator) (hw : g.WellFormed) (hcomp : g.Complete) :
    (expandPart wordexp ((g.textOf k).take bufSize) ss).2.calls =
      (pathCalls wordexp ss.calls.length c g.render).reverse ++ ss.calls := by
  have hnil := take_textOf_eq_nil_iff hc hw hcomp
  rw [expandPart, pathCalls]
  by_cases hm : c ∈ g.render
  · have hk := (Complex.mem_render_iff hc hw hcomp).mp hm
    rw [if_pos hm, if_neg fun h => hnil.mp h hm, Complex.redirectText_render hc hw hcomp hk]
    rfl
  · rw [if_neg hm, if_pos (hnil.mpr hm)]
    rfl

theorem length_pathCalls (n : Nat) (c : UInt8) (u : CString) :
    (pathCalls wordexp n c u).length = if c ∈ u then 1 else 0 := by
  rw [pathCalls]
  split <;> rfl

/-- The calls for a complex. -/
theorem finish_log {done : Option Command} (h : g.finish wordexp addr mask ss = (done, ss'))
    (hd : ss.aliases = d.toAliases) (hw : g.WellFormed) (hcomp : g.Complete) :
    ss'.calls = (segmentCalls wordexp d ss.calls.length g.render).reverse ++ ss.calls := by
  obtain rfl : (g.finish wordexp addr mask ss).2 = ss' := congrArg Prod.snd h
  have htext := Complex.commandText_render hw hcomp
  have hin : [60] = Kind.stdin.operator := rfl
  have hout : [62] = Kind.stdout.operator := rfl
  have htmp := expandAliasIn_eq hd ((g.textOf .command).take bufSize)
  rw [← htext, ← expandedText] at htmp
  dsimp only [Complex.finish]
  rw [← htext, htmp, segmentCalls]
  dsimp only [expandGlob, callWordexp]
  cases hwords : wordexp ss.calls.length (expandedText d g.render) with
  | none => rfl
  | some words =>
    dsimp only
    rw [expandPart_log hout hw hcomp, expandPart_log hin hw hcomp,
      if_neg (Option.some_ne_none words)]
    simp only [List.length_append, List.length_reverse, length_pathCalls, List.length_cons,
      List.reverse_cons, List.reverse_append, List.append_assoc, List.cons_append, List.nil_append]
    rw [Nat.add_comm (if 60 ∈ g.render then 1 else 0)]

theorem interpret_logs_none (hu : u ∉ complexRule) (rest : List (Connector × CString))
    (first : Bool) (queue : Queue) (ss : Session) :
    (interpret wordexp rest first none u queue ss).session.calls =
      (textCalls wordexp d ss.calls.length (u :: rest.map (·.2))).reverse ++ ss.calls := by
  rw [textCalls, if_neg fun h => hu h.1]
  obtain ⟨ss', hrun, hcalls⟩ | ⟨_, ss', hrun, hcalls⟩ :=
    interpret_not_complex wordexp rest first queue ss hu
  · rw [hrun]
    exact hcalls
  · rw [hrun]
    exact hcalls

theorem textCalls_failed (hu : u ∈ complexRule) (hopens : us.head?.all opens = true)
    (hfails : wordexp n (expandedText d u) = none) :
    textCalls wordexp d n (u :: us) = segmentCalls wordexp d n u := by
  rw [textCalls, if_pos ⟨hu, hopens⟩, if_pos hfails, List.append_nil]

theorem textCalls_cons (hu : u ∈ complexRule) (hopens : us.head?.all opens = true)
    (hok : wordexp n (expandedText d u) ≠ none) :
    textCalls wordexp d n (u :: us) =
      segmentCalls wordexp d n u ++ textCalls wordexp d (n + callCount u) us := by
  rw [textCalls, if_pos ⟨hu, hopens⟩, if_neg hok]

/-- The run over the pieces makes the calls for their texts. -/
theorem interpret_logs (rest : List (Connector × CString)) (first : Bool) (u : CString)
    (queue : Queue) (ss : Session) (hd : ss.aliases = d.toAliases) :
    (interpret wordexp rest first none u queue ss).session.calls =
      (textCalls wordexp d ss.calls.length (u :: rest.map (·.2))).reverse ++ ss.calls := by
  induction rest generalizing first u queue ss with
  | nil =>
    by_cases hu : u ∈ complexRule
    · obtain ⟨g, hg, hcomp⟩ := mem_complexRule_iff_scan.mp hu
      obtain ⟨hr, hw⟩ := Complex.scan_render Complex.wellFormed_empty hg
      obtain rfl : g.render = u := hr
      rw [interpret_last hg hcomp]
      rcases hfin : g.finish wordexp ss.created g.mask { ss with created := ss.created + 1 } with
        ⟨_ | cmd, ss'⟩
      · rw [List.map_nil, textCalls_failed hu rfl (finish_none hfin hd hw hcomp)]
        exact finish_log hfin hd hw hcomp
      · obtain ⟨words, hwords, _⟩ := (finish_some hfin hd hw hcomp).2.2.words
        have hlog := finish_log hfin hd hw hcomp
        rw [List.map_nil, textCalls_cons hu rfl (hwords ▸ Option.some_ne_none words), textCalls,
          List.append_nil]
        exact hlog
    · exact interpret_logs_none hu [] first queue ss
  | cons p rest ih =>
    obtain ⟨k, v⟩ := p
    by_cases hu : u ∈ complexRule
    · obtain ⟨g, hg, hcomp⟩ := mem_complexRule_iff_scan.mp hu
      obtain ⟨hr, hw⟩ := Complex.scan_render Complex.wellFormed_empty hg
      obtain rfl : g.render = u := hr
      rw [interpret_cons k hg hcomp]
      split
      · next hv =>
        have hopens : (((k, v) :: rest).map (·.2)).head?.all opens = true := hv
        rcases hfin : g.finish wordexp ss.created (k.mask g) { ss with created := ss.created + 1 }
          with ⟨_ | cmd, ss'⟩
        · rw [textCalls_failed hu hopens (finish_none hfin hd hw hcomp)]
          exact finish_log hfin hd hw hcomp
        · obtain ⟨hd', hlen, hmade⟩ := finish_some hfin hd hw hcomp
          obtain ⟨words, hwords, _⟩ := hmade.words
          have hlog := finish_log hfin hd hw hcomp
          have hrest := ih false v (queueInsert queue cmd) ss' hd'
          rw [textCalls_cons hu hopens (hwords ▸ Option.some_ne_none words), List.reverse_append,
            List.append_assoc]
          dsimp only at hlog hlen ⊢
          rw [hrest, hlen, hlog]
          rfl
      · next hv =>
        rw [textCalls, if_neg fun h => hv h.2]
        rfl
    · exact interpret_logs_none hu ((k, v) :: rest) first queue ss

/-- Reading any line calls `wordexp` for its segments in order, for the words of a command and then
for its paths, up to the first segment that is no complex, fails or is followed by nothing a complex
starts with; so it does for a line that is rejected. -/
theorem parseInput_calls (wordexp : Wordexp) (d : Dictionary) (calls : List ExpandCall)
    (created : Nat) (line : CString) (hline : ∀ c ∈ line, c ≠ 0) :
    ∃ r, parseInput wordexp ⟨d.toAliases, calls, created⟩ line = .ok r ∧
      r.session.calls = (textCalls wordexp d calls.length (texts line)).reverse ++ calls := by
  obtain ⟨r, hr, _, hsession, _⟩ := parseInput_spec wordexp ⟨d.toAliases, calls, created⟩ hline
  refine ⟨r, hr, ?_⟩
  rw [hsession]
  exact interpret_logs (splitLine line).2 true (splitLine line).1 queueNew
    ⟨d.toAliases, calls, created⟩ rfl

/-- `ls<in|wc>|`, which is outside the grammar. -/
theorem parseInput_calls_ls :
    ∃ r, parseInput (fun _ text => some [text]) ⟨Dictionary.empty.toAliases, [], 0⟩
        (bytes "ls<in|wc>|") = .ok r ∧
      r.session.calls = (textCalls (fun _ text => some [text]) Dictionary.empty 0
        (texts (bytes "ls<in|wc>|"))).reverse ++ [] :=
  parseInput_calls _ Dictionary.empty [] 0 _ (by decide +kernel)

end Redshell
