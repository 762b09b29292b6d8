import Redshell.ParserMeaning

/-! Lines with a command whose expansion fails. -/
namespace Redshell

/-- The texts between the connectors of a line. -/
def texts (line : CString) : List CString :=
  (splitLine line).1 :: (splitLine line).2.map (·.2)

/-- The expansion of the command at `i` fails, after `n` calls before the line and those of the
commands before it. -/
def FailsAt (wordexp : Wordexp) (d : Dictionary) (n : Nat) (us : List CString) (i : Nat) : Prop :=
  ∃ u, us[i]? = some u ∧
    wordexp (n + ((us.take i).map callCount).sum) (expandedText d u) = none

/-- The first failing expansion is that of the command at `i`, the texts up to it are complexes,
and the next one, if any, starts a complex. -/
def TruncatesAt (wordexp : Wordexp) (d : Dictionary) (n : Nat) (us : List CString) (i : Nat) :
    Prop :=
  FailsAt wordexp d n us i ∧ (∀ j < i, ¬ FailsAt wordexp d n us j) ∧
    (∀ u ∈ us.take (i + 1), u ∈ complexRule) ∧ ∀ u, us[i + 1]? = some u → opens u = true

variable {wordexp : Wordexp} {d : Dictionary} {ss : Session} {u : CString} {us : List CString}
  {queue : Queue} {first : Bool} {rest : List (Connector × CString)} {n i : Nat}

theorem failsAt_zero :
    FailsAt wordexp d n (u :: us) 0 ↔ wordexp n (expandedText d u) = none := by
  simp [FailsAt]

theorem failsAt_succ :
    FailsAt wordexp d n (u :: us) (i + 1) ↔ FailsAt wordexp d (n + callCount u) us i := by
  simp [FailsAt, Nat.add_assoc]

theorem truncatesAt_zero :
    TruncatesAt wordexp d n (u :: us) 0 ↔ wordexp n (expandedText d u) = none ∧
      u ∈ complexRule ∧ ∀ v, us[0]? = some v → opens v = true := by
  simp [TruncatesAt, failsAt_zero]

theorem truncatesAt_succ :
    TruncatesAt wordexp d n (u :: us) (i + 1) ↔ wordexp n (expandedText d u) ≠ none ∧
      u ∈ complexRule ∧ TruncatesAt wordexp d (n + callCount u) us i := by
  simp only [TruncatesAt, failsAt_succ, List.take_succ_cons, List.forall_mem_cons,
    List.getElem?_cons_succ]
  constructor
  · rintro ⟨hf, hprev, ⟨hu, hus⟩, hnext⟩
    refine ⟨fun h => hprev 0 (Nat.zero_lt_succ i) (failsAt_zero.mpr h), hu, hf, fun j hj => ?_,
      hus, hnext⟩
    exact fun h => hprev (j + 1) (Nat.succ_lt_succ hj) (failsAt_succ.mpr h)
  · rintro ⟨h0, hu, hf, hprev, hus, hnext⟩
    refine ⟨hf, fun j hj => ?_, ⟨hu, hus⟩, hnext⟩
    cases j with
    | zero => exact fun h => h0 (failsAt_zero.mp h)
    | succ j => exact fun h => hprev j (Nat.lt_of_succ_lt_succ hj) (failsAt_succ.mp h)

/-- A run that starts with no complex queues nothing and expands nothing, and only a blank line is
accepted. -/
theorem interpret_not_complex (wordexp : Wordexp) (rest : List (Connector × CString))
    (first : Bool) (queue : Queue) (ss : Session) (hu : u ∉ complexRule) :
    (∃ ss', interpret wordexp rest first none u queue ss = .rejected ss' ∧ ss'.calls = ss.calls) ∨
      first = true ∧ ∃ ss', interpret wordexp rest first none u queue ss = .accepted queue ss' ∧
        ss'.calls = ss.calls := by
  have hread : ∀ c u next,
      (∀ g addr ss', Complex.empty.scan (c :: u) = some g → ss'.calls = ss.calls →
        (∃ ss₁, next g addr queue ss' = .rejected ss₁ ∧ ss₁.calls = ss.calls) ∨
          first = true ∧ ∃ ss₁, next g addr queue ss' = .accepted queue ss₁ ∧
            ss₁.calls = ss.calls) →
      (∃ ss', readPiece wordexp none c u queue ss next = .rejected ss' ∧ ss'.calls = ss.calls) ∨
        first = true ∧ ∃ ss', readPiece wordexp none c u queue ss next = .accepted queue ss' ∧
          ss'.calls = ss.calls := by
    intro c u next hnext
    rw [Complex.scan] at hnext
    rw [readPiece]
    cases hp : Complex.empty.push c with
    | none => exact Or.inl ⟨_, rfl, rfl⟩
    | some g =>
      rw [hp] at hnext
      simp only [flush, List.append_nil]
      cases hg : g.scan u with
      | none => exact Or.inl ⟨_, rfl, rfl⟩
      | some g' => exact hnext g' _ _ hg rfl
  have hcomp : ∀ g, Complex.empty.scan u = some g → ¬ g.Complete := fun g hg hc =>
    hu (mem_complexRule_iff_scan.mpr ⟨g, hg, hc⟩)
  cases rest with
  | nil =>
    cases u with
    | nil =>
      cases first with
      | true => exact Or.inr ⟨rfl, _, rfl, rfl⟩
      | false => exact Or.inl ⟨_, rfl, rfl⟩
    | cons c u =>
      refine hread c u _ fun g addr ss' hg hcalls => ?_
      rw [endLine, if_neg (hcomp g hg)]
      split
      · rename_i hblank
        exact Or.inr ⟨hblank.1, _, rfl, hcalls⟩
      · exact Or.inl ⟨_, rfl, hcalls⟩
  | cons p rest =>
    obtain ⟨k, v⟩ := p
    cases u with
    | nil => exact Or.inl ⟨_, rfl, rfl⟩
    | cons c u =>
      refine hread c u _ fun g addr ss' hg hcalls => ?_
      rw [if_neg (hcomp g hg)]
      exact Or.inl ⟨_, rfl, hcalls⟩

/-- A run by its pieces: the first is no complex, or it is followed by none, or its command fails,
is the last one or is queued before the others. -/
theorem interpret_induction (wordexp : Wordexp)
    {motive : Session → CString → List (Connector × CString) → Bool → Queue → Verdict → Prop}
    (rejected : ∀ ss ss' u rest first queue, u ∉ complexRule → ss'.calls = ss.calls →
      motive ss u rest first queue (.rejected ss'))
    (blank : ∀ ss ss' u rest queue, u ∉ complexRule → ss'.calls = ss.calls →
      motive ss u rest true queue (.accepted queue ss'))
    (unopened : ∀ ss u k v rest first queue, opens v = false →
      motive ss u ((k, v) :: rest) first queue (.rejected { ss with created := ss.created + 1 }))
    (failed : ∀ ss ss' (g : Complex) mask rest first queue, g.WellFormed → g.Complete →
      g.finish wordexp ss.created mask { ss with created := ss.created + 1 } = (none, ss') →
      (∀ p : Connector × CString, rest.head? = some p → opens p.2 = true) →
      motive ss g.render rest first queue (.aborted queue ss'))
    (last : ∀ ss ss' (g : Complex) command first queue, g.WellFormed → g.Complete →
      g.finish wordexp ss.created g.mask { ss with created := ss.created + 1 } =
        (some command, ss') →
      motive ss g.render [] first queue (.accepted (queueInsert queue command) ss'))
    (cons : ∀ ss ss' (g : Complex) (k : Connector) v rest command first queue verdict,
      g.WellFormed → g.Complete →
      g.finish wordexp ss.created (k.mask g) { ss with created := ss.created + 1 } =
        (some command, ss') →
      motive ss' v rest false (queueInsert queue command) verdict →
      motive ss g.render ((k, v) :: rest) first queue verdict)
    (rest : List (Connector × CString)) (first : Bool) (u : CString) (queue : Queue)
    (ss : Session) :
    motive ss u rest first queue (interpret wordexp rest first none u queue ss) := by
  induction rest generalizing first u queue ss with
  | nil =>
    by_cases hu : u ∈ complexRule
    · obtain ⟨g, hg, hcomp⟩ := mem_complexRule_iff_scan.mp hu
      obtain ⟨hr, hw⟩ := Complex.scan_render Complex.wellFormed_empty hg
      obtain rfl : g.render = u := hr
      rw [interpret_last hg hcomp]
      split
      · next ss' hfin =>
          exact failed ss ss' g _ [] first queue hw hcomp hfin (fun p hp => by cases hp)
      · next command ss' hfin => exact last ss ss' g command first queue hw hcomp hfin
    · obtain ⟨ss', hrun, hcalls⟩ | ⟨rfl, ss', hrun, hcalls⟩ :=
        interpret_not_complex wordexp [] first queue ss hu
      · exact hrun ▸ rejected ss ss' u [] first queue hu hcalls
      · exact hrun ▸ blank ss ss' u [] queue hu hcalls
  | cons p rest ih =>
    obtain ⟨k, v⟩ := p
    by_cases hu : u ∈ complexRule
    · obtain ⟨g, hg, hcomp⟩ := mem_complexRule_iff_scan.mp hu
      obtain ⟨hr, hw⟩ := Complex.scan_render Complex.wellFormed_empty hg
      obtain rfl : g.render = u := hr
      rw [interpret_cons k hg hcomp]
      split
      · next hv =>
        split
        · next ss' hfin =>
          refine failed ss ss' g _ _ first queue hw hcomp hfin fun p hp => ?_
          cases hp
          exact hv
        · next command ss' hfin =>
          exact cons ss ss' g k v rest command first queue _ hw hcomp hfin (ih false v _ ss')
      · next hv => exact unopened ss _ k v rest first queue (Bool.eq_false_iff.mpr hv)
    · obtain ⟨ss', hrun, hcalls⟩ | ⟨rfl, ss', hrun, hcalls⟩ :=
        interpret_not_complex wordexp ((k, v) :: rest) first queue ss hu
      · exact hrun ▸ rejected ss ss' u _ first queue hu hcalls
      · exact hrun ▸ blank ss ss' u _ queue hu hcalls

/-- What a verdict says about the failing expansions of the texts. -/
def Verdict.Reflects (v : Verdict) (wordexp : Wordexp) (d : Dictionary) (n : Nat)
    (us : List CString) (first : Bool) (queue : Queue) : Prop :=
  match v with
  | accepted q _ =>
    (∀ i, ¬ TruncatesAt wordexp d n us i) ∧
      ((∀ i, ¬ FailsAt wordexp d n us i) ∨ first = true ∧ q = queue)
  | aborted q _ => ∃ i, q.length = queue.length + i ∧ ∀ j, TruncatesAt wordexp d n us j ↔ j = i
  | rejected _ => ∀ i, ¬ TruncatesAt wordexp d n us i

theorem not_truncatesAt (hu : u ∉ complexRule) (i : Nat) :
    ¬ TruncatesAt wordexp d n (u :: us) i := by
  intro h
  cases i with
  | zero => exact hu (truncatesAt_zero.mp h).2.1
  | succ i => exact hu (truncatesAt_succ.mp h).2.1

/-- A failing expansion that the run reaches is the only place where it can truncate. -/
theorem truncatesAt_iff_of_fails (hu : u ∈ complexRule)
    (hf : wordexp n (expandedText d u) = none) (hnext : ∀ v, us[0]? = some v → opens v = true)
    (j : Nat) : TruncatesAt wordexp d n (u :: us) j ↔ j = 0 := by
  cases j with
  | zero => exact iff_of_true (truncatesAt_zero.mpr ⟨hf, hu, hnext⟩) rfl
  | succ j => simp [truncatesAt_succ, hf]

/-- After a command was queued, a verdict says of the texts what it says of those left. -/
theorem Verdict.Reflects.cons {v : Verdict} (command : Command) (hu : u ∈ complexRule)
    (hf : wordexp n (expandedText d u) ≠ none)
    (h : v.Reflects wordexp d (n + callCount u) us false (queueInsert queue command)) :
    v.Reflects wordexp d n (u :: us) first queue := by
  have hzero : ¬ TruncatesAt wordexp d n (u :: us) 0 := fun h => hf (truncatesAt_zero.mp h).1
  have hsucc : ∀ i, TruncatesAt wordexp d n (u :: us) (i + 1) ↔
      TruncatesAt wordexp d (n + callCount u) us i := by
    intro i
    simp [truncatesAt_succ, hf, hu]
  have hnone : (∀ i, ¬ TruncatesAt wordexp d (n + callCount u) us i) →
      ∀ i, ¬ TruncatesAt wordexp d n (u :: us) i := by
    intro hnone i
    cases i with
    | zero => exact hzero
    | succ i => exact fun hi => hnone i ((hsucc i).mp hi)
  cases v with
  | accepted q ss =>
    obtain ⟨hnot, hok | ⟨hfirst, _⟩⟩ := h
    · refine ⟨hnone hnot, Or.inl fun i => ?_⟩
      cases i with
      | zero => exact fun hi => hf (failsAt_zero.mp hi)
      | succ i => exact fun hi => hok i (failsAt_succ.mp hi)
    · cases hfirst
  | aborted q ss =>
    obtain ⟨i, hlen, hi⟩ := h
    refine ⟨i + 1, ?_, fun j => ?_⟩
    · rw [hlen, queueInsert, List.length_append, List.length_singleton]
      omega
    · cases j with
      | zero => simp [hzero]
      | succ j => rw [hsucc, hi, Nat.succ_inj]
  | rejected ss => exact hnone h

/-- The run over the pieces stops in the first failing expansion, and nowhere else. -/
theorem interpret_reflects (wordexp : Wordexp) (rest : List (Connector × CString))
    (first : Bool) (u : CString) (queue : Queue) (ss : Session) (hd : ss.aliases = d.toAliases) :
    (interpret wordexp rest first none u queue ss).Reflects wordexp d ss.calls.length
      (u :: rest.map (·.2)) first queue := by
  revert hd
  refine interpret_induction wordexp
    (motive := fun ss u rest first queue v => ss.aliases = d.toAliases →
      v.Reflects wordexp d ss.calls.length (u :: rest.map (·.2)) first queue)
    ?rejected ?blank ?unopened ?failed ?last ?cons rest first u queue ss
  case rejected => exact fun ss ss' u rest first queue hu _ _ => not_truncatesAt hu
  case blank => exact fun ss ss' u rest queue hu _ _ => ⟨not_truncatesAt hu, .inr ⟨rfl, rfl⟩⟩
  case unopened =>
    intro ss u k v rest first queue hv _ i hi
    have hnot : v ∉ complexRule := fun hm => by
      obtain ⟨g, hg, hcomp⟩ := mem_complexRule_iff_scan.mp hm
      rw [opens_of_scan hg hcomp] at hv
      cases hv
    cases i with
    | zero =>
      have hopens := (truncatesAt_zero.mp hi).2.2 v rfl
      rw [hv] at hopens
      cases hopens
    | succ i => exact not_truncatesAt hnot i (truncatesAt_succ.mp hi).2.2
  case failed =>
    intro ss ss' g mask rest first queue hw hcomp hfin hnext hd
    have hu := mem_complexRule.mpr ⟨g, hw, hcomp, rfl⟩
    have hnone := finish_none hfin hd hw hcomp
    refine ⟨0, rfl, truncatesAt_iff_of_fails hu hnone fun v hv => ?_⟩
    cases rest with
    | nil => cases hv
    | cons p rest =>
      cases hv
      exact hnext p rfl
  case last =>
    intro ss ss' g command first queue hw hcomp hfin hd
    obtain ⟨_, _, hmade⟩ := finish_some hfin hd hw hcomp
    obtain ⟨words, hwords, _⟩ := hmade.words
    have hempty : ∀ i : Nat, ¬ FailsAt wordexp d (ss.calls.length + callCount g.render) [] i := by
      rintro i ⟨v, hv, _⟩
      cases hv
    exact Verdict.Reflects.cons command (mem_complexRule.mpr ⟨g, hw, hcomp, rfl⟩)
      (by rw [hwords]; exact Option.some_ne_none words) ⟨fun i hi => hempty i hi.1, .inl hempty⟩
  case cons =>
    intro ss ss' g k v rest command first queue verdict hw hcomp hfin ih hd
    obtain ⟨hd', hcalls, hmade⟩ := finish_some hfin hd hw hcomp
    obtain ⟨words, hwords, _⟩ := hmade.words
    have hrest := ih hd'
    rw [hcalls] at hrest
    exact Verdict.Reflects.cons command (mem_complexRule.mpr ⟨g, hw, hcomp, rfl⟩)
      (by rw [hwords]; exact Option.some_ne_none words) hrest

/-- A failing expansion after the first command is reached in the runs that are aborted with
commands in the queue. -/
theorem Verdict.Reflects.truncates_iff {v : Verdict}
    (h : v.Reflects wordexp d n us true queueNew) :
    (∃ i, 0 < i ∧ TruncatesAt wordexp d n us i) ↔ ∃ q ss, v = .aborted q ss ∧ q ≠ [] := by
  cases v with
  | accepted q ss =>
    refine iff_of_false ?_ (by simp)
    rintro ⟨i, _, hi⟩
    exact h.1 i hi
  | aborted q ss =>
    obtain ⟨i, hlen, hi⟩ := h
    rw [queueNew, List.length_nil, Nat.zero_add] at hlen
    constructor
    · rintro ⟨j, hj, htrunc⟩
      obtain rfl := (hi j).mp htrunc
      exact ⟨q, ss, rfl, List.ne_nil_of_length_pos (by omega)⟩
    · rintro ⟨q', ss', hv, hne⟩
      cases hv
      exact ⟨i, hlen ▸ List.length_pos_of_ne_nil hne, (hi i).mpr rfl⟩
  | rejected ss =>
    refine iff_of_false ?_ (by simp)
    rintro ⟨i, _, hi⟩
    exact h i hi

/-- The run over a line stops in the first failing expansion, and nowhere else. -/
theorem interpretLine_reflects (wordexp : Wordexp) (d : Dictionary) (calls : List ExpandCall)
    (created : Nat) (line : CString) :
    (interpretLine wordexp ⟨d.toAliases, calls, created⟩ line).Reflects wordexp d calls.length
      (texts line) true queueNew :=
  interpret_reflects wordexp (splitLine line).2 true (splitLine line).1 queueNew
    ⟨d.toAliases, calls, created⟩ rfl

/-- A failing expansion empties the queue, unless it is reached after a command was queued. -/
theorem parseInput_failure_atomic_iff (wordexp : Wordexp) (d : Dictionary)
    (calls : List ExpandCall) (created : Nat) (line : CString) (hline : ∀ c ∈ line, c ≠ 0) :
    ∃ r, parseInput wordexp ⟨d.toAliases, calls, created⟩ line = .ok r ∧
      (((∃ i, FailsAt wordexp d calls.length (texts line) i) → r.queue = []) ↔
        ¬ ∃ i, 0 < i ∧ TruncatesAt wordexp d calls.length (texts line) i) := by
  obtain ⟨r, hr, hqueue, _⟩ := parseInput_spec wordexp ⟨d.toAliases, calls, created⟩ hline
  refine ⟨r, hr, ?_⟩
  have hreflects := interpretLine_reflects wordexp d calls created line
  rw [hqueue, hreflects.truncates_iff]
  cases hv : interpretLine wordexp ⟨d.toAliases, calls, created⟩ line with
  | accepted q ss =>
    rw [hv] at hreflects
    refine iff_of_true ?_ (by simp)
    rintro ⟨i, hi⟩
    obtain hok | ⟨_, rfl⟩ := hreflects.2
    · exact absurd hi (hok i)
    · rfl
  | aborted q ss =>
    rw [hv] at hreflects
    obtain ⟨i, _, hi⟩ := hreflects
    have hfails : ∃ i, FailsAt wordexp d calls.length (texts line) i := ⟨i, ((hi i).mpr rfl).1⟩
    simp [Verdict.queue, hfails]
  | rejected ss => exact iff_of_true (fun _ => rfl) (by simp)

/-- A `wordexp` that refuses texts with a double quote, as it does an unbalanced one. -/
def refuseQuotes : Wordexp := fun _ text => if 34 ∈ text then none else some [text]

/-- One command and one with an unbalanced quote, in a list. -/
theorem parseInput_failure_atomic_iff_ls :
    ∃ r, parseInput refuseQuotes ⟨Dictionary.empty.toAliases, [], 0⟩ (bytes "ls; wc \"") = .ok r ∧
      (((∃ i, FailsAt refuseQuotes Dictionary.empty 0 (texts (bytes "ls; wc \"")) i) →
          r.queue = []) ↔
        ¬ ∃ i, 0 < i ∧
          TruncatesAt refuseQuotes Dictionary.empty 0 (texts (bytes "ls; wc \"")) i) :=
  parseInput_failure_atomic_iff refuseQuotes Dictionary.empty [] 0 _ (by decide +kernel)

/-- In `ls | wc "` the second expansion fails, and a pipeline without its end is returned. -/
theorem parseInput_failure_truncates :
    ¬ ∀ (wordexp : Wordexp) (d : Dictionary) (calls : List ExpandCall) (created : Nat)
      (line : CString), (∀ c ∈ line, c ≠ 0) →
      (∃ i, FailsAt wordexp d calls.length (texts line) i) →
      ∃ r, parseInput wordexp ⟨d.toAliases, calls, created⟩ line = .ok r ∧ r.queue = [] := by
  intro hall
  obtain ⟨r, hr, hqueue⟩ := hall refuseQuotes Dictionary.empty [] 0 (bytes "ls | wc \"")
    (by decide +kernel) ⟨1, bytes " wc \"", by decide +kernel, by decide +kernel⟩
  have hrun : (parseInput refuseQuotes ⟨Dictionary.empty.toAliases, [], 0⟩
      (bytes "ls | wc \"")).map (fun r => r.queue.map (·.connectionMask)) =
      .ok [Connection.pipe] := by decide +kernel
  rw [hr] at hrun
  simp [Except.map, hqueue] at hrun

end Redshell
