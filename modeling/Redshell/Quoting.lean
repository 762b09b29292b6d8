import Redshell.Queued

/-! Lines of words in single quotes, and what comes back from them. -/
namespace Redshell

/-- A word between single quotes. -/
def quote (w : CString) : CString := 39 :: (w ++ [39])

/-- The words in single quotes, with single spaces between them. -/
def quotedLine : List CString → CString
  | [] => []
  | [w] => quote w
  | w :: w' :: ws => quote w ++ 32 :: quotedLine (w' :: ws)

/-- Quoted words, each with a space after it, and then a quotation that is not closed. -/
def unclosed (ws : List CString) (pre : CString) : CString :=
  ws.flatMap (fun w => quote w ++ [32]) ++ 39 :: pre

/-- The words that single quotes can hold on a line. -/
structure Quotable (w : CString) : Prop where
  ne_nil : w ≠ []
  plain : ∀ c ∈ w, c ≠ 0 ∧ c ≠ 39 ∧ c ≠ 10

/-- The bytes that end a `string` of the grammar. -/
def isOperator (c : UInt8) : Bool := isMark c || (findConnector c).isSome

/-- What `wordexp` does with single quotes: a closed quotation is its content, one that is left open
is an error of syntax. -/
structure ReadsQuotes (wordexp : Wordexp) : Prop where
  closed : ∀ n ws, (∀ w ∈ ws, Quotable w) → wordexp n (quotedLine ws) = some ws
  dangling : ∀ n ws pre, (∀ w ∈ ws, Quotable w) → 39 ∉ pre → wordexp n (unclosed ws pre) = none

/-- The queue is one command with these words and nothing else. -/
def RoundTrip (r : Parse) (words : List CString) : Prop :=
  ∃ cmd, r.queue = [cmd] ∧ cmd.argv = some words ∧ cmd.redirectFromPath = none ∧
    cmd.redirectToPath = none ∧ cmd.connectionMask = .none

variable {wordexp : Wordexp} {d : Dictionary} {w v s line : CString} {ws words : List CString}
  {c : UInt8}

theorem isOperator_quote : isOperator 39 = false := by decide

theorem isOperator_space : isOperator 32 = false := by decide

theorem isOperator_eq_false (h : isOperator c = false) :
    findConnector c = none ∧ c ≠ 60 ∧ c ≠ 62 ∧ c ≠ 38 := by
  rw [isOperator, Bool.or_eq_false_iff, Option.isSome_eq_false_iff, Option.isNone_iff_eq_none]
    at h
  obtain ⟨hmark, hfind⟩ := h
  refine ⟨hfind, ?_, ?_, ?_⟩
  all_goals
    rintro rfl
    revert hmark
    decide

/-- Outside the operators, every byte but NUL goes into a `string`. -/
theorem isText_of_not_operator (h : isOperator c = false) (hc : c ≠ 0) : isText c = true := by
  obtain ⟨hfind, hin, hout, hbg⟩ := isOperator_eq_false h
  obtain ⟨hseq, hpipe⟩ := findConnector_eq_none_iff.mp hfind
  cases hclass : classify c with
  | nul => exact absurd ((classify_eq_iff c).1.mp hclass) hc
  | space => exact isText_of_space hclass
  | seq => exact absurd hclass hseq
  | pipe => exact absurd hclass hpipe
  | stdin => exact absurd (classify_eq_stdin_iff.mp hclass) hin
  | stdout => exact absurd (classify_eq_stdout_iff.mp hclass) hout
  | bg => exact absurd (classify_eq_bg_iff.mp hclass) hbg
  | word => exact isText_of_word hclass

/-! The bytes of a quoted line. -/

theorem quotedLine_cons (w : CString) (ws : List CString) :
    ∃ t, quotedLine (w :: ws) = 39 :: t := by
  cases ws with
  | nil => exact ⟨_, rfl⟩
  | cons w' ws => exact ⟨_, rfl⟩

theorem mem_quotedLine (hc : c ∈ quotedLine words) : c = 39 ∨ c = 32 ∨ ∃ w ∈ words, c ∈ w := by
  induction words with
  | nil => cases hc
  | cons w ws ih =>
    have hquote : c ∈ quote w → c = 39 ∨ c = 32 ∨ ∃ v ∈ w :: ws, c ∈ v := by
      intro hm
      rcases List.mem_cons.mp hm with rfl | hm
      · exact .inl rfl
      · rcases List.mem_append.mp hm with hm | hm
        · exact .inr (.inr ⟨w, List.mem_cons_self, hm⟩)
        · exact .inl (List.mem_singleton.mp hm)
    cases ws with
    | nil => exact hquote hc
    | cons w' ws =>
      rw [quotedLine] at hc
      rcases List.mem_append.mp hc with hm | hm
      · exact hquote hm
      · rcases List.mem_cons.mp hm with rfl | hm
        · exact .inr (.inl rfl)
        · rcases ih hm with h | h | ⟨v, hv, hm⟩
          · exact .inl h
          · exact .inr (.inl h)
          · exact .inr (.inr ⟨v, List.mem_cons_of_mem _ hv, hm⟩)

theorem quotedLine_ne_zero (hwords : ∀ w ∈ words, Quotable w) : ∀ c ∈ quotedLine words, c ≠ 0 := by
  rintro c hc rfl
  rcases mem_quotedLine hc with h | h | ⟨w, hw, hm⟩
  · cases h
  · cases h
  · exact ((hwords w hw).plain 0 hm).1 rfl

/-- Cut at its first operator byte, a quoted line ends in an open quotation. -/
theorem before_quotedLine (hwords : ∀ w ∈ words, Quotable w)
    (hop : ∃ w ∈ words, ∃ c ∈ w, isOperator c = true) :
    ∃ ws pre, (∀ w ∈ ws, Quotable w) ∧ 39 ∉ pre ∧
      Cut.before isOperator (quotedLine words) = unclosed ws pre := by
  induction words with
  | nil =>
    obtain ⟨w, hw, _⟩ := hop
    cases hw
  | cons w ws ih =>
    obtain ⟨t, ht⟩ : ∃ t, quotedLine (w :: ws) = [39] ++ (w ++ 39 :: t) ∧
        (ws ≠ [] → t = 32 :: quotedLine ws) := by
      cases ws with
      | nil => exact ⟨[], by simp [quotedLine, quote], fun h => absurd rfl h⟩
      | cons w' ws => exact ⟨_, by simp [quotedLine, quote], fun _ => rfl⟩
    obtain ⟨hline, htail⟩ := ht
    have hquote : Cut.before isOperator ([39] ++ (w ++ 39 :: t)) =
        39 :: Cut.before isOperator (w ++ 39 :: t) :=
      Cut.before_append_of_none (by simp [isOperator_quote])
    rw [hline, hquote]
    by_cases hw : ∃ c ∈ w, isOperator c = true
    · refine ⟨[], Cut.before isOperator w, by simp, fun hm => ?_, ?_⟩
      · have hmem : (39 : UInt8) ∈ w := List.takeWhile_subset _ hm
        exact ((hwords w List.mem_cons_self).plain 39 hmem).2.1 rfl
      · have hcut : Cut.onward isOperator w ≠ [] := by
          intro hnil
          obtain ⟨c, hc, hcop⟩ := hw
          rw [Cut.onward_eq_nil_iff.mp hnil c hc] at hcop
          cases hcop
        obtain ⟨a, u, hau⟩ := List.exists_cons_of_ne_nil hcut
        have hsplit : w ++ 39 :: t = Cut.before isOperator w ++ (a :: (u ++ 39 :: t)) := by
          conv_lhs => rw [← Cut.before_append_onward isOperator w, hau]
          simp
        rw [hsplit, Cut.before_append_of_none fun b hb => Cut.before_separator hb,
          Cut.before_cons_of_separator (Cut.onward_head hau), List.append_nil]
        rfl
    · have hnone : ∀ c ∈ w, isOperator c = false := by
        intro c hc
        by_contra h
        exact hw ⟨c, hc, by simpa using h⟩
      have hlater : ∃ v ∈ ws, ∃ c ∈ v, isOperator c = true := by
        obtain ⟨v, hv, hcv⟩ := hop
        rcases List.mem_cons.mp hv with rfl | hv
        · exact absurd hcv hw
        · exact ⟨v, hv, hcv⟩
      have hne : ws ≠ [] := by
        rintro rfl
        obtain ⟨v, hv, _⟩ := hlater
        cases hv
      obtain ⟨ws', pre, hws', hpre, hcut⟩ :=
        ih (fun v hv => hwords v (List.mem_cons_of_mem _ hv)) hlater
      refine ⟨w :: ws', pre, ?_, hpre, ?_⟩
      · exact List.forall_mem_cons.mpr ⟨hwords w List.mem_cons_self, hws'⟩
      · have hspace : Cut.before isOperator ([39, 32] ++ quotedLine ws) =
            [39, 32] ++ Cut.before isOperator (quotedLine ws) :=
          Cut.before_append_of_none (by simp [isOperator_quote, isOperator_space])
        have htext : w ++ 39 :: t = w ++ ([39, 32] ++ quotedLine ws) := by
          rw [htail hne]
          rfl
        rw [htext, Cut.before_append_of_none hnone, hspace, hcut]
        simp [unclosed, quote]

/-! The text of the first command. -/

theorem splitLine_fst (s : CString) :
    (splitLine s).1 = Cut.before (fun c => (findConnector c).isSome) s := by
  induction s with
  | nil => rfl
  | cons c s ih =>
    rw [splitLine]
    cases hc : findConnector c with
    | none =>
      have hcons : Cut.before (fun c => (findConnector c).isSome) ([c] ++ s) =
          [c] ++ Cut.before (fun c => (findConnector c).isSome) s :=
        Cut.before_append_of_none (by simp [hc])
      exact (congrArg (c :: ·) ih).trans hcons.symm
    | some k => exact (Cut.before_cons_of_separator (by simp [hc])).symm

/-- The command text of a line's first segment, when the line starts with a quotation. -/
theorem commandText_quoted (hlen : (39 :: s).length ≤ bufSize) :
    commandText (splitLine (39 :: s)).1 = Cut.before isOperator (39 :: s) := by
  have hbefore : ∀ t, Cut.before isMark (Cut.before (fun c => (findConnector c).isSome) t) =
      Cut.before isOperator t := by
    intro t
    rw [Cut.before, Cut.before, Cut.before, List.takeWhile_takeWhile]
    congr 1
    funext c
    rw [isOperator]
    cases findConnector c <;> cases isMark c <;> rfl
  have hhead : skipSpaces (splitLine (39 :: s)).1 = (splitLine (39 :: s)).1 :=
    Cut.onward_cons_of_separator (by decide)
  rw [commandText, hhead, splitLine_fst, hbefore]
  refine List.take_of_length_le (le_trans ?_ hlen)
  exact (List.takeWhile_sublist _).length_le

/-- Without aliases a text that fits the buffer is expanded to itself. -/
theorem expandAlias_of_no_alias (hnone : ∀ k, d.find k = none) (hlen : s.length ≤ bufSize) :
    (expandAlias d.toAliases s).1 = s := by
  obtain ⟨final, hrounds, hexp⟩ := expandAlias_spec d.valid d.released s
  rw [hexp, copyBack_eq]
  cases hrounds with
  | done => rw [if_pos rfl, List.take_of_length_le hlen]
  | again hv => cases (hnone _).symm.trans hv

/-! The round trip. -/

/-- A line of one `string` makes the command that its words give. -/
theorem parseInput_string {calls : List ExpandCall} (created : Nat) (hstring : IsString line)
    (hop : ∀ c ∈ line, isOperator c = false)
    (hzero : ∀ c ∈ line, c ≠ 0) (hnone : ∀ k, d.find k = none) (hlen : line.length ≤ bufSize)
    (hwords : wordexp calls.length line = some words) :
    ∃ r, parseInput wordexp ⟨d.toAliases, calls, created⟩ line = .ok r ∧ RoundTrip r words := by
  obtain ⟨r, hr, hqueue, _⟩ := parseInput_spec wordexp ⟨d.toAliases, calls, created⟩ hzero
  refine ⟨r, hr, ?_⟩
  have hsplit := splitLine_join (u := line) []
    (fun c hc => (isOperator_eq_false (hop c hc)).1) (by simp)
  rw [joinRest, List.flatMap_nil, List.append_nil] at hsplit
  obtain ⟨g, hscan, hw, hcomp, hrender, htextOf, hnoMark⟩ := Complex.exists_of_isString hstring
  have hnoMask : g.mask = .none := by rw [Complex.mask, hnoMark]
  have htext : commandText line = line := by
    have h := Complex.commandText_render hw hcomp
    rwa [hrender, htextOf, List.take_of_length_le hlen] at h
  have hexpanded : expandedText d g.render = line := by
    rw [hrender, expandedText, htext]
    exact expandAlias_of_no_alias hnone hlen
  have hfin := finish_spec wordexp ⟨d.toAliases, calls, created + 1⟩ rfl hw hcomp created g.mask
  dsimp only at hfin
  rw [hexpanded, hwords] at hfin
  obtain ⟨command, ss', hfin, _, _, _, _, hmask, hmade⟩ := hfin
  rw [interpretLine, hsplit, interpret_last hscan hcomp, hfin] at hqueue
  obtain ⟨words', hwords', hargv, _⟩ := hmade.words
  rw [hexpanded, hwords, Option.some.injEq] at hwords'
  subst hwords'
  have hfrom : 60 ∉ line := fun hm => (isOperator_eq_false (hop 60 hm)).2.1 rfl
  have hto : 62 ∉ line := fun hm => (isOperator_eq_false (hop 62 hm)).2.2.1 rfl
  refine ⟨command, hqueue, hargv, ?_, ?_, hmask.trans hnoMask⟩
  · rw [hmade.redirectFrom, hrender, if_neg hfrom]
  · rw [hmade.redirectTo, hrender, if_neg hto]

/-- Quoted words come back exactly when none of them holds an operator of the grammar. -/
theorem parseInput_quotes_iff (hquotes : ReadsQuotes wordexp) (hnone : ∀ k, d.find k = none)
    (calls : List ExpandCall) (created : Nat) (words : List CString) (hne : words ≠ [])
    (hwords : ∀ w ∈ words, Quotable w) (hlen : (quotedLine words).length ≤ bufSize) :
    ∃ r, parseInput wordexp ⟨d.toAliases, calls, created⟩ (quotedLine words) = .ok r ∧
      (RoundTrip r words ↔ ∀ w ∈ words, ∀ c ∈ w, isOperator c = false) := by
  obtain ⟨w, ws, rfl⟩ := List.exists_cons_of_ne_nil hne
  obtain ⟨t, ht⟩ := quotedLine_cons w ws
  have hzero := quotedLine_ne_zero hwords
  by_cases hop : ∀ v ∈ w :: ws, ∀ c ∈ v, isOperator c = false
  · have hall : ∀ c ∈ quotedLine (w :: ws), isOperator c = false := by
      intro c hc
      rcases mem_quotedLine hc with rfl | rfl | ⟨v, hv, hm⟩
      · exact isOperator_quote
      · exact isOperator_space
      · exact hop v hv c hm
    have hstring : IsString (quotedLine (w :: ws)) := by
      refine ⟨39, t, ht, by decide, fun b hb => ?_⟩
      have hb' : b ∈ quotedLine (w :: ws) := ht ▸ List.mem_cons_of_mem _ hb
      exact isText_of_not_operator (hall b hb') (hzero b hb')
    obtain ⟨r, hr, htrip⟩ := parseInput_string created hstring hall hzero hnone hlen
      (hquotes.closed calls.length (w :: ws) hwords)
    exact ⟨r, hr, iff_of_true htrip hop⟩
  · obtain ⟨r, hr, _, hqueued⟩ := parseInput_queued wordexp d calls created _ hzero
    refine ⟨r, hr, iff_of_false ?_ hop⟩
    have hsome : ∃ v ∈ w :: ws, ∃ c ∈ v, isOperator c = true := by
      simpa only [not_forall, Bool.not_eq_false, exists_prop] using hop
    obtain ⟨ws', pre, hws', hpre, hcut⟩ := before_quotedLine hwords hsome
    have hfails : FailsAt wordexp d calls.length (texts (quotedLine (w :: ws))) 0 := by
      refine ⟨_, rfl, ?_⟩
      have htext : commandText (splitLine (quotedLine (w :: ws))).1 = unclosed ws' pre := by
        rw [← hcut, ht]
        exact commandText_quoted (ht ▸ hlen)
      have hshort : (unclosed ws' pre).length ≤ bufSize := by
        rw [← hcut]
        exact le_trans (List.takeWhile_sublist _).length_le hlen
      rw [expandedText, htext, expandAlias_of_no_alias hnone hshort]
      exact hquotes.dangling _ ws' pre hws' hpre
    rintro ⟨cmd, hqueue, _⟩
    have hzeroth := (hqueued 0).mp (by rw [hqueue]; exact Nat.zero_lt_one)
    rcases hzeroth with ⟨_, ⟨_, hok⟩ | ⟨i, hi, htrunc⟩⟩
    · exact hok 0 hfails
    · exact htrunc.2.1 0 hi hfails

/-! A `wordexp` that knows single quotes and blanks. -/

/-- The words of a text, inside or outside of a quotation, after a part of a word. -/
def shellWords : Bool → Option CString → CString → Option (List CString)
  | true, _, [] => none
  | false, word, [] => some word.toList
  | true, word, c :: s =>
    if c = 39 then shellWords false word s
    else shellWords true (some (word.getD [] ++ [c])) s
  | false, word, c :: s =>
    if c = 39 then shellWords true (some (word.getD [])) s
    else if isBlank c then (word.toList ++ ·) <$> shellWords false none s
    else shellWords false (some (word.getD [] ++ [c])) s

theorem shellWords_quoted (hv : 39 ∉ v) (w s : CString) :
    shellWords true (some w) (v ++ s) = shellWords true (some (w ++ v)) s := by
  induction v generalizing w with
  | nil => rw [List.nil_append, List.append_nil]
  | cons c v ih =>
    obtain ⟨hc, hv⟩ := not_or.mp (List.mem_cons.not.mp hv)
    rw [List.cons_append, shellWords, if_neg (Ne.symm hc), ih hv, Option.getD_some,
      List.append_assoc, List.singleton_append]

theorem shellWords_quote (hw : Quotable w) (s : CString) :
    shellWords false none (quote w ++ s) = shellWords false (some w) s := by
  have hquote : 39 ∉ w := fun hm => (hw.plain 39 hm).2.1 rfl
  rw [quote, List.cons_append, List.append_assoc, shellWords, if_pos rfl, Option.getD_none,
    shellWords_quoted hquote]
  rfl

theorem shellWords_quotedLine (hws : ∀ w ∈ ws, Quotable w) :
    shellWords false none (quotedLine ws) = some ws := by
  induction ws with
  | nil => rfl
  | cons w ws ih =>
    obtain ⟨hw, hws⟩ := List.forall_mem_cons.mp hws
    cases ws with
    | nil =>
      have h := shellWords_quote hw []
      rwa [List.append_nil] at h
    | cons w' ws =>
      rw [quotedLine, shellWords_quote hw, shellWords, if_neg (by decide), if_pos (by decide),
        ih hws]
      rfl

theorem shellWords_unclosed {pre : CString} (hws : ∀ w ∈ ws, Quotable w) (hpre : 39 ∉ pre) :
    shellWords false none (unclosed ws pre) = none := by
  induction ws with
  | nil =>
    have h := shellWords_quoted hpre [] []
    rw [List.append_nil] at h
    exact h
  | cons w ws ih =>
    obtain ⟨hw, hws⟩ := List.forall_mem_cons.mp hws
    have hcons : unclosed (w :: ws) pre = quote w ++ 32 :: unclosed ws pre := by simp [unclosed]
    rw [hcons, shellWords_quote hw, shellWords, if_neg (by decide), if_pos (by decide), ih hws]
    rfl

theorem shellWords_reads : ReadsQuotes fun _ => shellWords false none where
  closed _ _ hws := shellWords_quotedLine hws
  dangling _ _ _ hws hpre := shellWords_unclosed hws hpre

/-- The line `'ls' 'a b'`. -/
theorem parseInput_quotes_iff_ls :
    ∃ r, parseInput (fun _ => shellWords false none) ⟨Dictionary.empty.toAliases, [], 0⟩
        (quotedLine [bytes "ls", bytes "a b"]) = .ok r ∧
      (RoundTrip r [bytes "ls", bytes "a b"] ↔
        ∀ w ∈ [bytes "ls", bytes "a b"], ∀ c ∈ w, isOperator c = false) :=
  parseInput_quotes_iff shellWords_reads Dictionary.find_empty [] 0 _ (by decide)
    (by
      intro w hw
      rcases List.mem_pair.mp hw with rfl | rfl
      · exact ⟨by decide +kernel, by decide +kernel⟩
      · exact ⟨by decide +kernel, by decide +kernel⟩)
    (by decide)

/-- The line `'a;b'` is cut inside the quotation. -/
theorem parseInput_cuts_quotes :
    ¬ ∀ (wordexp : Wordexp) (d : Dictionary) (calls : List ExpandCall) (created : Nat)
      (words : List CString), ReadsQuotes wordexp → (∀ k, d.find k = none) → words ≠ [] →
      (∀ w ∈ words, Quotable w) → (quotedLine words).length ≤ bufSize →
      ∃ r, parseInput wordexp ⟨d.toAliases, calls, created⟩ (quotedLine words) = .ok r ∧
        RoundTrip r words := by
  intro hall
  obtain ⟨r, hr, cmd, hqueue, _⟩ := hall (fun _ => shellWords false none) Dictionary.empty [] 0
    [bytes "a;b"] shellWords_reads Dictionary.find_empty (by decide)
    (by
      intro w hw
      obtain rfl := List.mem_singleton.mp hw
      exact ⟨by decide +kernel, by decide +kernel⟩)
    (by decide)
  have hrun : (parseInput (fun _ => shellWords false none) ⟨Dictionary.empty.toAliases, [], 0⟩
      (quotedLine [bytes "a;b"])).map (fun r => r.queue.length) = .ok 0 := by decide +kernel
  rw [hr] at hrun
  have hlen : r.queue.length = 0 := Except.ok.inj hrun
  rw [hqueue] at hlen
  cases hlen

end Redshell
