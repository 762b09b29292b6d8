import Redshell.ParserFailure

/-! The commands that any line puts in the queue, segment by segment. -/
namespace Redshell

/-- The `wordexp` calls before those for the command at `i`, after `n` calls before the line. -/
def callsBefore (n : Nat) (us : List CString) (i : Nat) : Nat :=
  n + ((us.take i).map callCount).sum

/-- The texts of a line make a queue of commands, all of them or those up to a failing
expansion. -/
structure Makes (wordexp : Wordexp) (d : Dictionary) (n : Nat) (us : List CString)
    (made : Queue) : Prop where
  length_le : made.length ≤ us.length
  made : ∀ i cmd, made[i]? = some cmd →
    ∃ u, us[i]? = some u ∧ SegmentMade wordexp d (callsBefore n us i) u cmd

/-- What a verdict has added to the queue. -/
def Verdict.Adds (v : Verdict) (wordexp : Wordexp) (d : Dictionary) (n : Nat)
    (us : List CString) (first : Bool) (queue : Queue) : Prop :=
  match v with
  | accepted q _ => ∃ made, q = queue ++ made ∧ Makes wordexp d n us made ∧
      (made.length = us.length ∧ (∀ u ∈ us, u ∈ complexRule) ∨
        first = true ∧ made = [] ∧ ¬ ∀ u ∈ us, u ∈ complexRule)
  | aborted q _ => ∃ made, q = queue ++ made ∧ Makes wordexp d n us made
  | rejected _ => True

/-- The line queues the command of its segment `i`: its segments are complexes and no expansion
fails, or the first failing one comes later. -/
def Queued (wordexp : Wordexp) (d : Dictionary) (n : Nat) (us : List CString) (i : Nat) : Prop :=
  i < us.length ∧
    (((∀ u ∈ us, u ∈ complexRule) ∧ ∀ j, ¬ FailsAt wordexp d n us j) ∨
      ∃ t, i < t ∧ TruncatesAt wordexp d n us t)

variable {wordexp : Wordexp} {d : Dictionary} {ss ss' : Session} {g : Complex} {u : CString}
  {us : List CString} {q queue made : Queue} {first : Bool} {n i : Nat} {command : Command}
  {rest : List (Connector × CString)}

namespace Makes

theorem nil (wordexp : Wordexp) (d : Dictionary) (n : Nat) (us : List CString) :
    Makes wordexp d n us [] := ⟨Nat.zero_le _, fun i cmd hcmd => by cases hcmd⟩

theorem cons (hcommand : SegmentMade wordexp d n u command)
    (h : Makes wordexp d (n + callCount u) us made) :
    Makes wordexp d n (u :: us) (command :: made) := by
  refine ⟨Nat.succ_le_succ h.length_le, fun i cmd hcmd => ?_⟩
  cases i with
  | zero =>
    cases hcmd
    exact ⟨u, rfl, hcommand⟩
  | succ i =>
    obtain ⟨v, hv, hmade⟩ := h.made i cmd hcmd
    refine ⟨v, hv, ?_⟩
    simpa [callsBefore, Nat.add_assoc] using hmade

end Makes

/-- After a command was queued, a verdict adds it and what it adds to the rest. -/
theorem Verdict.Adds.cons {v : Verdict} (hu : u ∈ complexRule)
    (hcommand : SegmentMade wordexp d n u command)
    (h : v.Adds wordexp d (n + callCount u) us false (queueInsert queue command)) :
    v.Adds wordexp d n (u :: us) first queue := by
  cases v with
  | accepted q ss =>
    obtain ⟨made, rfl, hmakes, ⟨hlen, hus⟩ | ⟨hfalse, _⟩⟩ := h
    · refine ⟨command :: made, by simp [queueInsert], hmakes.cons hcommand, .inl ⟨?_, ?_⟩⟩
      · rw [List.length_cons, List.length_cons, hlen]
      · exact List.forall_mem_cons.mpr ⟨hu, hus⟩
    · cases hfalse
  | aborted q ss =>
    obtain ⟨made, rfl, hmakes⟩ := h
    exact ⟨command :: made, by simp [queueInsert], hmakes.cons hcommand⟩
  | rejected ss => trivial

/-- The run over the pieces queues the commands of its texts. -/
theorem interpret_adds (wordexp : Wordexp) (rest : List (Connector × CString)) (first : Bool)
    (u : CString) (queue : Queue) (ss : Session) (hd : ss.aliases = d.toAliases) :
    (interpret wordexp rest first none u queue ss).Adds wordexp d ss.calls.length
      (u :: rest.map (·.2)) first queue := by
  revert hd
  refine interpret_induction wordexp
    (motive := fun ss u rest first queue v => ss.aliases = d.toAliases →
      v.Adds wordexp d ss.calls.length (u :: rest.map (·.2)) first queue)
    ?rejected ?blank ?unopened ?failed ?last ?cons rest first u queue ss
  case rejected => exact fun _ _ _ _ _ _ _ _ _ => trivial
  case blank =>
    intro ss ss' u rest queue hu _ _
    exact ⟨[], (List.append_nil _).symm, .nil wordexp d _ _,
      .inr ⟨rfl, rfl, fun h => hu (h u List.mem_cons_self)⟩⟩
  case unopened => exact fun _ _ _ _ _ _ _ _ _ => trivial
  case failed =>
    exact fun _ _ _ _ _ _ _ _ _ _ _ _ => ⟨[], (List.append_nil _).symm, .nil wordexp d _ _⟩
  case last =>
    intro ss ss' g command first queue hw hcomp hfin hd
    obtain ⟨_, _, hmade⟩ := finish_some hfin hd hw hcomp
    exact Verdict.Adds.cons (mem_complexRule.mpr ⟨g, hw, hcomp, rfl⟩) hmade
      ⟨[], (List.append_nil _).symm, .nil wordexp d _ _, .inl ⟨rfl, fun u hu => by cases hu⟩⟩
  case cons =>
    intro ss ss' g k v rest command first queue verdict hw hcomp hfin ih hd
    obtain ⟨hd', hcalls, hmade⟩ := finish_some hfin hd hw hcomp
    have hrest := ih hd'
    rw [hcalls] at hrest
    exact Verdict.Adds.cons (mem_complexRule.mpr ⟨g, hw, hcomp, rfl⟩) hmade hrest

theorem texts_blank {line : CString} (hblank : ∀ c ∈ line, classify c = .space) :
    texts line = [line] := by
  rw [texts, splitLine_blank hblank]
  rfl

/-- A line of the grammar that is not blank is made of complexes. -/
theorem texts_complex_iff {line : CString} : (∀ u ∈ texts line, u ∈ complexRule) ↔
    line ∈ mainRule ∧ ¬ ∀ c ∈ line, classify c = .space := by
  have hall : (∀ u ∈ texts line, u ∈ complexRule) ↔
      (splitLine line).1 ∈ complexRule ∧ ∀ p ∈ (splitLine line).2, p.2 ∈ complexRule := by
    rw [texts, List.forall_mem_cons, List.forall_mem_map]
  rw [mem_mainRule, ← hall]
  constructor
  · intro h
    refine ⟨.inr h, fun hblank => ?_⟩
    have hline := h line (by rw [texts_blank hblank]; exact List.mem_singleton_self line)
    obtain ⟨g, hg, hcomp⟩ := mem_complexRule_iff_scan.mp hline
    exact ((scan_blank_iff hg).mpr hblank).1 hcomp
  · rintro ⟨hblank | h, hnot⟩
    · exact absurd hblank hnot
    · exact h

/-- What a line queues: the commands of its segments, as far as `Queued` says. -/
theorem parseInput_queued (wordexp : Wordexp) (d : Dictionary) (calls : List ExpandCall)
    (created : Nat) (line : CString) (hline : ∀ c ∈ line, c ≠ 0) :
    ∃ r, parseInput wordexp ⟨d.toAliases, calls, created⟩ line = .ok r ∧
      Makes wordexp d calls.length (texts line) r.queue ∧
      ∀ i, i < r.queue.length ↔ Queued wordexp d calls.length (texts line) i := by
  obtain ⟨r, hr, hqueue, _⟩ := parseInput_spec wordexp ⟨d.toAliases, calls, created⟩ hline
  refine ⟨r, hr, ?_⟩
  have hadds := interpret_adds (d := d) wordexp (splitLine line).2 true (splitLine line).1
    queueNew ⟨d.toAliases, calls, created⟩ rfl
  have hreflects := interpret_reflects (d := d) wordexp (splitLine line).2 true (splitLine line).1
    queueNew ⟨d.toAliases, calls, created⟩ rfl
  have hfits := interpret_fits wordexp (splitLine line).2 true none (splitLine line).1
    queueNew ⟨d.toAliases, calls, created⟩
  rw [acceptable_splitLine] at hfits
  rw [hqueue, interpretLine]
  change Verdict.Adds _ wordexp d calls.length (texts line) true queueNew at hadds
  change Verdict.Reflects _ wordexp d calls.length (texts line) true queueNew at hreflects
  cases hv : interpret wordexp (splitLine line).2 true none (splitLine line).1 queueNew
      ⟨d.toAliases, calls, created⟩ with
  | accepted q ss =>
    rw [hv] at hadds hreflects
    obtain ⟨hnot, hok⟩ := hreflects
    obtain ⟨made, hq, hmakes, hlen⟩ := hadds
    obtain rfl : q = made := hq
    refine ⟨hmakes, fun i => ?_⟩
    change i < q.length ↔ _
    rcases hlen with ⟨hlen, hcomplex⟩ | ⟨_, rfl, hcomplex⟩
    · have hnone : ∀ j, ¬ FailsAt wordexp d calls.length (texts line) j := by
        rcases hok with hok | ⟨_, hempty⟩
        · exact hok
        · rw [hempty] at hlen
          cases hlen
      rw [hlen]
      exact ⟨fun hi => ⟨hi, .inl ⟨hcomplex, hnone⟩⟩, fun h => h.1⟩
    · refine iff_of_false (Nat.not_lt_zero i) ?_
      rintro ⟨_, ⟨hall, _⟩ | ⟨t, _, ht⟩⟩
      · exact hcomplex hall
      · exact hnot t ht
  | aborted q ss =>
    rw [hv] at hadds hreflects
    obtain ⟨t, hlen, ht⟩ := hreflects
    obtain ⟨made, hq, hmakes⟩ := hadds
    obtain rfl : q = made := hq
    have hlen' : q.length = t := hlen.trans (Nat.zero_add t)
    refine ⟨hmakes, fun i => ?_⟩
    change i < q.length ↔ _
    have hfails := ((ht t).mpr rfl).1
    constructor
    · intro hi
      exact ⟨hi.trans_le hmakes.length_le, .inr ⟨t, hlen' ▸ hi, (ht t).mpr rfl⟩⟩
    · rintro ⟨_, ⟨_, hnone⟩ | ⟨t', hi, ht'⟩⟩
      · exact absurd hfails (hnone t)
      · rw [hlen', ← (ht t').mp ht']
        exact hi
  | rejected ss =>
    rw [hv] at hreflects hfits
    refine ⟨.nil wordexp d _ _, fun i => iff_of_false (Nat.not_lt_zero i) ?_⟩
    rintro ⟨_, ⟨hcomplex, _⟩ | ⟨t, _, ht⟩⟩
    · exact hfits (texts_complex_iff.mp hcomplex).1
    · exact hreflects t ht

/-! Commands without a name. -/

/-- The command has a first word, and it is its path. -/
def Command.Named (cmd : Command) : Prop :=
  ∃ name args, cmd.argv = some (name :: args) ∧ cmd.path = some name

/-- The command text of the segment `i` expands to no word at all. -/
def EmptyAt (wordexp : Wordexp) (d : Dictionary) (n : Nat) (us : List CString) (i : Nat) : Prop :=
  ∃ u, us[i]? = some u ∧ wordexp (callsBefore n us i) (expandedText d u) = some []

theorem SegmentMade.named_iff (h : SegmentMade wordexp d n u command) :
    command.Named ↔ wordexp n (expandedText d u) ≠ some [] := by
  obtain ⟨words, hwords, hargv, hpath⟩ := h.words
  rw [Command.Named, hwords, hargv, hpath]
  cases words with
  | nil => simp
  | cons name args => simp

/-- Every command in the queue has a name exactly when no queued command's text expands to
nothing. -/
theorem parseInput_named_iff (wordexp : Wordexp) (d : Dictionary) (calls : List ExpandCall)
    (created : Nat) (line : CString) (hline : ∀ c ∈ line, c ≠ 0) :
    ∃ r, parseInput wordexp ⟨d.toAliases, calls, created⟩ line = .ok r ∧
      ((∀ cmd ∈ r.queue, cmd.Named) ↔
        ∀ i, Queued wordexp d calls.length (texts line) i →
          ¬ EmptyAt wordexp d calls.length (texts line) i) := by
  obtain ⟨r, hr, hmakes, hqueued⟩ := parseInput_queued wordexp d calls created line hline
  refine ⟨r, hr, ?_⟩
  constructor
  · rintro hnamed i hi ⟨u, hu, hempty⟩
    have hlt := (hqueued i).mpr hi
    obtain ⟨v, hv, hmade⟩ := hmakes.made i r.queue[i] (List.getElem?_eq_getElem hlt)
    cases hu.symm.trans hv
    exact hmade.named_iff.mp (hnamed _ (List.getElem_mem hlt)) hempty
  · intro hnone cmd hmem
    obtain ⟨i, hcmd⟩ := List.getElem?_of_mem hmem
    have hlt := (List.getElem?_eq_some_iff.mp hcmd).1
    obtain ⟨u, hu, hmade⟩ := hmakes.made i cmd hcmd
    exact hmade.named_iff.mpr fun hempty => hnone i ((hqueued i).mp hlt) ⟨u, hu, hempty⟩

/-- A `wordexp` for which every variable is unset. -/
def unsetVariables : Wordexp := fun _ text => if text.head? = some 36 then some [] else some [text]

/-- A list whose second command is an unset variable. -/
theorem parseInput_named_iff_ls :
    ∃ r, parseInput unsetVariables ⟨Dictionary.empty.toAliases, [], 0⟩ (bytes "ls; $X") = .ok r ∧
      ((∀ cmd ∈ r.queue, cmd.Named) ↔
        ∀ i, Queued unsetVariables Dictionary.empty 0 (texts (bytes "ls; $X")) i →
          ¬ EmptyAt unsetVariables Dictionary.empty 0 (texts (bytes "ls; $X")) i) :=
  parseInput_named_iff unsetVariables Dictionary.empty [] 0 _ (by decide +kernel)

/-- The line `$X`, when the variable is unset, gives a command without a name. -/
theorem parseInput_nameless :
    ¬ ∀ (wordexp : Wordexp) (d : Dictionary) (calls : List ExpandCall) (created : Nat)
      (line : CString), (∀ c ∈ line, c ≠ 0) →
      ∃ r, parseInput wordexp ⟨d.toAliases, calls, created⟩ line = .ok r ∧
        ∀ cmd ∈ r.queue, cmd.Named := by
  intro hall
  obtain ⟨r, hr, hnamed⟩ := hall unsetVariables Dictionary.empty [] 0 (bytes "$X")
    (by decide +kernel)
  have hrun : (parseInput unsetVariables ⟨Dictionary.empty.toAliases, [], 0⟩
      (bytes "$X")).map (fun r => r.queue.map (·.path)) = .ok [none] := by decide +kernel
  rw [hr] at hrun
  have hpaths : r.queue.map (·.path) = [none] := Except.ok.inj hrun
  obtain ⟨cmd, hmem, hpath⟩ := List.mem_map.mp (hpaths ▸ List.mem_singleton_self none)
  obtain ⟨name, args, _, hname⟩ := hnamed cmd hmem
  cases hpath.symm.trans hname

/-! Redirections that are dropped. -/

/-- The text after the operator `c` of the segment `i`, whose command is reached, expands to exactly
one word; `skipped` calls come before its own. -/
def Redirects (wordexp : Wordexp) (d : Dictionary) (n : Nat) (us : List CString) (i : Nat)
    (c : UInt8) (skipped : Nat) (u : CString) : Prop :=
  (∀ j ≤ i, ¬ FailsAt wordexp d n us j) ∧
    ∃ word, wordexp (callsBefore n us i + skipped) (redirectText c u) = some [word]

theorem singleWord_ne_none_iff {words : Option (List CString)} :
    singleWord words ≠ none ↔ ∃ word, words = some [word] := by
  cases words with
  | none => simp [singleWord]
  | some words =>
    match words with
    | [] => simp [singleWord]
    | [word] => simp [singleWord]
    | a :: b :: rest => simp [singleWord]

/-- Segments that are complexes are queued up to the first failing expansion. -/
theorem queued_iff (hus : ∀ u ∈ us, u ∈ complexRule) :
    Queued wordexp d n us i ↔ i < us.length ∧ ∀ j ≤ i, ¬ FailsAt wordexp d n us j := by
  constructor
  · rintro ⟨hi, ⟨_, hnone⟩ | ⟨t, hit, ht⟩⟩
    · exact ⟨hi, fun j _ => hnone j⟩
    · exact ⟨hi, fun j hj => ht.2.1 j (by omega)⟩
  · rintro ⟨hi, hbefore⟩
    refine ⟨hi, ?_⟩
    by_cases hfails : ∃ t, FailsAt wordexp d n us t
    · right
      classical
      have hfirst : ∀ j < Nat.find hfails, ¬ FailsAt wordexp d n us j := fun j hj =>
        Nat.find_min hfails hj
      refine ⟨Nat.find hfails, ?_, Nat.find_spec hfails, hfirst, ?_, ?_⟩
      · by_contra hle
        exact hbefore _ (not_lt.mp hle) (Nat.find_spec hfails)
      · intro u hu
        exact hus u (List.mem_of_mem_take hu)
      · intro u hu
        obtain ⟨g, hg, hcomp⟩ := mem_complexRule_iff_scan.mp (hus u (List.mem_of_getElem? hu))
        exact opens_of_scan hg hcomp
    · left
      exact ⟨hus, fun j hj => hfails ⟨j, hj⟩⟩

/-- Nothing is queued when already the first expansion fails. -/
theorem queue_eq_nil_iff (hus : ∀ u ∈ us, u ∈ complexRule) (hne : us ≠ [])
    (hqueued : ∀ i, i < q.length ↔ Queued wordexp d n us i) :
    q = [] ↔ FailsAt wordexp d n us 0 := by
  have hzero := (hqueued 0).trans (queued_iff hus)
  constructor
  · rintro rfl
    by_contra hok
    refine Nat.lt_irrefl 0 (hzero.mpr ⟨List.length_pos_of_ne_nil hne, fun j hj => ?_⟩)
    rwa [Nat.le_zero.mp hj]
  · intro hfails
    by_contra hq
    exact (hzero.mp (List.length_pos_of_ne_nil hq)).2 0 le_rfl hfails

/-- The written redirections of a line are all made, or it leaves the queue empty. -/
def Honours (line : CString) (r : Parse) : Prop :=
  r.queue = [] ∨ ∀ (i : Nat) (u : CString), (texts line)[i]? = some u →
    (60 ∈ u → ∃ cmd : Command, r.queue[i]? = some cmd ∧ cmd.redirectFromPath ≠ none) ∧
      (62 ∈ u → ∃ cmd : Command, r.queue[i]? = some cmd ∧ cmd.redirectToPath ≠ none)

theorem Makes.redirects_iff (h : Makes wordexp d n us q) (hus : ∀ u ∈ us, u ∈ complexRule)
    (hqueued : ∀ i, i < q.length ↔ Queued wordexp d n us i) (hu : us[i]? = some u)
    {path : Command → Option CString} {c : UInt8} {skipped : Nat}
    (hpath : ∀ cmd, SegmentMade wordexp d (callsBefore n us i) u cmd →
      path cmd = singleWord (wordexp (callsBefore n us i + skipped) (redirectText c u))) :
    (∃ cmd, q[i]? = some cmd ∧ path cmd ≠ none) ↔ Redirects wordexp d n us i c skipped u := by
  have hreached := (hqueued i).trans (queued_iff hus)
  constructor
  · rintro ⟨cmd, hcmd, hne⟩
    obtain ⟨v, hv, hmade⟩ := h.made i cmd hcmd
    cases hu.symm.trans hv
    rw [hpath cmd hmade, singleWord_ne_none_iff] at hne
    exact ⟨(hreached.mp (List.getElem?_eq_some_iff.mp hcmd).1).2, hne⟩
  · rintro ⟨hbefore, hword⟩
    have hlt := hreached.mpr ⟨(List.getElem?_eq_some_iff.mp hu).1, hbefore⟩
    have hcmd : q[i]? = some q[i] := List.getElem?_eq_getElem hlt
    obtain ⟨v, hv, hmade⟩ := h.made i _ hcmd
    cases hu.symm.trans hv
    refine ⟨q[i], hcmd, ?_⟩
    rw [hpath _ hmade, singleWord_ne_none_iff]
    exact hword

/-- A written redirection is made, or the queue left empty, exactly when the first expansion of the
line fails or the texts after `<` and `>` are all reached and expand to one word. -/
theorem parseInput_honours_iff (wordexp : Wordexp) (d : Dictionary) (calls : List ExpandCall)
    (created : Nat) (line : CString) (hline : ∀ c ∈ line, c ≠ 0) (hmain : line ∈ mainRule) :
    ∃ r, parseInput wordexp ⟨d.toAliases, calls, created⟩ line = .ok r ∧
      (Honours line r ↔
        FailsAt wordexp d calls.length (texts line) 0 ∨
          ∀ (i : Nat) (u : CString), (texts line)[i]? = some u →
            (60 ∈ u → Redirects wordexp d calls.length (texts line) i 60 1 u) ∧
              (62 ∈ u → Redirects wordexp d calls.length (texts line) i 62
                (1 + if 60 ∈ u then 1 else 0) u)) := by
  obtain ⟨r, hr, hmakes, hqueued⟩ := parseInput_queued wordexp d calls created line hline
  refine ⟨r, hr, ?_⟩
  by_cases hblank : ∀ c ∈ line, classify c = .space
  · have hnone : ∀ (i : Nat) (u : CString), (texts line)[i]? = some u → 60 ∉ u ∧ 62 ∉ u := by
      intro i u hu
      rw [texts_blank hblank] at hu
      obtain rfl := List.mem_singleton.mp (List.mem_of_getElem? hu)
      constructor
      · intro hm
        exact absurd (hblank 60 hm) (by decide)
      · intro hm
        exact absurd (hblank 62 hm) (by decide)
    refine iff_of_true (.inr fun i u hu => ?_) (.inr fun i u hu => ?_)
    · exact ⟨fun hm => absurd hm (hnone i u hu).1, fun hm => absurd hm (hnone i u hu).2⟩
    · exact ⟨fun hm => absurd hm (hnone i u hu).1, fun hm => absurd hm (hnone i u hu).2⟩
  · have hus := texts_complex_iff.mpr ⟨hmain, hblank⟩
    rw [Honours, queue_eq_nil_iff hus (List.cons_ne_nil _ _) hqueued]
    refine or_congr Iff.rfl (forall_congr' fun i => forall_congr' fun u => ?_)
    refine forall_congr' fun hu => and_congr ?_ ?_
    · refine forall_congr' fun hm => hmakes.redirects_iff hus hqueued hu fun cmd hmade => ?_
      rw [hmade.redirectFrom, if_pos hm]
    · refine forall_congr' fun hm => hmakes.redirects_iff hus hqueued hu fun cmd hmade => ?_
      rw [hmade.redirectTo, if_pos hm, Nat.add_assoc]

/-- A `wordexp` that splits its text at blanks. -/
def splitBlanks : Wordexp := fun _ text => some ((text.splitOn 32).filter fun word => word ≠ [])

/-- Two redirections with one word each. -/
theorem parseInput_honours_iff_ls :
    ∃ r, parseInput splitBlanks ⟨Dictionary.empty.toAliases, [], 0⟩ (bytes "wc < in; ls > out") =
        .ok r ∧
      (Honours (bytes "wc < in; ls > out") r ↔
        FailsAt splitBlanks Dictionary.empty 0 (texts (bytes "wc < in; ls > out")) 0 ∨
          ∀ (i : Nat) (u : CString), (texts (bytes "wc < in; ls > out"))[i]? = some u →
            (60 ∈ u → Redirects splitBlanks Dictionary.empty 0
                (texts (bytes "wc < in; ls > out")) i 60 1 u) ∧
              (62 ∈ u → Redirects splitBlanks Dictionary.empty 0
                (texts (bytes "wc < in; ls > out")) i 62 (1 + if 60 ∈ u then 1 else 0) u)) :=
  parseInput_honours_iff splitBlanks Dictionary.empty [] 0 _ (by decide +kernel)
    (by decide +kernel)

/-- In `ls > a b` two words stand after the operator, and the command writes to the terminal. -/
theorem parseInput_drops_redirection :
    ¬ ∀ (wordexp : Wordexp) (d : Dictionary) (calls : List ExpandCall) (created : Nat)
      (line : CString), (∀ c ∈ line, c ≠ 0) → line ∈ mainRule →
      ∃ r, parseInput wordexp ⟨d.toAliases, calls, created⟩ line = .ok r ∧ Honours line r := by
  intro hall
  obtain ⟨r, hr, hhonours⟩ := hall splitBlanks Dictionary.empty [] 0 (bytes "ls > a b")
    (by decide +kernel) (by decide +kernel)
  have hrun : (parseInput splitBlanks ⟨Dictionary.empty.toAliases, [], 0⟩
      (bytes "ls > a b")).map (fun r => r.queue.map (·.redirectToPath)) = .ok [none] := by
    decide +kernel
  rw [hr] at hrun
  have hpaths : r.queue.map (·.redirectToPath) = [none] := Except.ok.inj hrun
  rcases hhonours with hempty | hall
  · rw [hempty] at hpaths
    cases hpaths
  · obtain ⟨cmd, hcmd, hne⟩ := (hall 0 (bytes "ls > a b") (by decide +kernel)).2 (by decide +kernel)
    have hmem := List.mem_map_of_mem (f := (·.redirectToPath)) (List.mem_of_getElem? hcmd)
    rw [hpaths, List.mem_singleton] at hmem
    exact hne hmem

end Redshell
