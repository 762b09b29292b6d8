import Redshell.AliasText
import Redshell.ParserReads

/-! Lines whose texts are cut before they are expanded. -/
namespace Redshell

/-- The texts of the segments of a line, none when it is blank. -/
def segmentTexts (line : CString) : List CString := (segments line).map (·.1)

/-- The queue is left empty; or the run reads the command texts of the queued segments and of the
next one, and hands on what they expand to and the redirections of the queued ones. -/
def HandsTexts (command expanded : CString → CString) (redirect : UInt8 → CString → CString)
    (wordexp : Wordexp) (ss : Session) (line : CString) (r : Parse) : Prop :=
  r.queue = [] ∨
    readTexts wordexp ss line = ((segmentTexts line).take (r.queue.length + 1)).map command ∧
      r.handed ss.calls = handedOn (fun u => (true, expanded u)) (redirectCalls redirect)
        r.queue.length (segmentTexts line)

/-- The texts are those that were typed, with the aliases substituted in the commands. -/
def Untruncated (wordexp : Wordexp) (d : Dictionary) (calls : List ExpandCall) (created : Nat)
    (line : CString) (r : Parse) : Prop :=
  HandsTexts typedText (fun u => d.fullText (typedText u)) typedRedirect wordexp
    ⟨d.toAliases, calls, created⟩ line r

/-- The command text of a segment fits its buffer, and so do the alias values put in for its first
word. -/
structure CommandKept (d : Dictionary) (u : CString) : Prop where
  fits : (typedText u).length ≤ bufSize
  values : ∃ values, Leads d.find [] (Cut.before isBlank (typedText u)) values ∧
    WholeValues values

/-- Substitution leaves some text of every command. -/
def NoneVanishes (d : Dictionary) (line : CString) : Prop :=
  ∀ u ∈ segmentTexts line, ¬ Vanishes d.find [] (Cut.before isBlank (typedText u))

/-- The texts after the operators of a segment fit their buffers. -/
def RedirectionsKept (u : CString) : Prop :=
  (60 ∈ u → (typedRedirect 60 u).length ≤ bufSize) ∧
    (62 ∈ u → (typedRedirect 62 u).length ≤ bufSize)

variable {wordexp : Wordexp} {d : Dictionary} {calls : List ExpandCall} {created n i : Nat}
  {line u : CString} {us : List CString} {q : Queue} {r : Parse}

/-! Lists that agree. -/

section

variable {α β : Type} {a : α} {as : List α} {f g : α → β} {f' g' : α → List β}

theorem forall_getElem?_cons {P : Nat → α → Prop} :
    (∀ i b, (a :: as)[i]? = some b → P i b) ↔ P 0 a ∧ ∀ i b, as[i]? = some b → P (i + 1) b := by
  constructor
  · intro h
    exact ⟨h 0 a rfl, fun i b hb => h (i + 1) b hb⟩
  · rintro ⟨hzero, hsucc⟩ i b hb
    cases i with
    | zero =>
      cases hb
      exact hzero
    | succ i => exact hsucc i b hb

theorem map_take_eq_iff : (as.take n).map f = (as.take n).map g ↔
    ∀ i a, as[i]? = some a → i < n → f a = g a := by
  rw [List.map_inj_left]
  constructor
  · intro h i a ha hi
    refine h a (List.mem_of_getElem? (i := i) ?_)
    rw [List.getElem?_take_of_lt hi, ha]
  · intro h a ha
    obtain ⟨i, hi⟩ := List.getElem?_of_mem ha
    rw [List.getElem?_take] at hi
    split at hi
    · next hlt => exact h i a hi hlt
    · cases hi

/-- What is handed on agrees when every element that counts does. -/
theorem handedOn_eq_iff (hlen : ∀ a, (f' a).length = (g' a).length) :
    handedOn f f' n as = handedOn g g' n as ↔
      ∀ i a, as[i]? = some a → (i ≤ n → f a = g a) ∧ (i < n → f' a = g' a) := by
  induction as generalizing n with
  | nil => simp [handedOn]
  | cons a as ih =>
    rw [forall_getElem?_cons]
    cases n with
    | zero => simp [handedOn]
    | succ n =>
      have happ : f' a ++ handedOn f f' n as = g' a ++ handedOn g g' n as ↔
          f' a = g' a ∧ handedOn f f' n as = handedOn g g' n as := by
        constructor
        · exact fun h => List.append_inj h (hlen a)
        · rintro ⟨hhead, hrest⟩
          rw [hhead, hrest]
      rw [handedOn, handedOn, List.cons.injEq, happ, ih]
      simp only [Nat.zero_le, Nat.zero_lt_succ, true_implies, Nat.succ_le_succ_iff,
        Nat.succ_lt_succ_iff, and_assoc]

end

/-! One segment. -/

theorem redirectCalls_eq_iff :
    redirectCalls redirectText u = redirectCalls typedRedirect u ↔ RedirectionsKept u := by
  have hcut : ∀ c, redirectText c u = typedRedirect c u ↔ (typedRedirect c u).length ≤ bufSize :=
    fun c => List.take_eq_self_iff _
  rw [RedirectionsKept, ← hcut, ← hcut]
  by_cases hin : 60 ∈ u <;> by_cases hout : 62 ∈ u <;> simp [redirectCalls, hin, hout]

/-- What counts of a command is kept when it is read and handed on whole. -/
theorem commandKept_iff (hu : u ∈ complexRule)
    (hstays : ¬ Vanishes d.find [] (Cut.before isBlank (typedText u))) :
    commandText u = typedText u ∧ expandedText d u = d.fullText (typedText u) ↔
      CommandKept d u := by
  have hw : Cut.before isBlank (typedText u) ≠ [] := by
    obtain ⟨c, t, ht, hblank⟩ := Complex.typedText_cons hu
    rw [ht]
    exact Cut.before_cons_ne_nil hblank
  constructor
  · rintro ⟨hcut, hexp⟩
    have hlen : (typedText u).length ≤ bufSize := (List.take_eq_self_iff _).mp hcut
    rw [expandedText, hcut, expandAlias_eq_fullText_iff hlen hw] at hexp
    obtain ⟨values, hl, hwhole, _⟩ := hexp
    exact ⟨hlen, values, hl, hwhole⟩
  · rintro ⟨hlen, values, hl, hwhole⟩
    have hcut : commandText u = typedText u := List.take_of_length_le hlen
    refine ⟨hcut, ?_⟩
    rw [expandedText, hcut, expandAlias_eq_fullText_iff hlen hw]
    exact ⟨values, hl, hwhole, hstays⟩

/-! The segments of a line. -/

theorem attach_fst (u : CString) (rest : List (Connector × CString)) :
    (attach u rest).map (·.1) = u :: rest.map (·.2) := by
  induction rest generalizing u with
  | nil => rfl
  | cons p rest ih => rw [attach, List.map_cons, List.map_cons, ih]

theorem segmentTexts_eq (hblank : ¬ ∀ c ∈ line, classify c = .space) :
    segmentTexts line = texts line := by
  rw [segmentTexts, segments, if_neg hblank, attach_fst, texts]

/-- A blank line queues nothing. -/
theorem not_queued_blank (hblank : ∀ c ∈ line, classify c = .space) (i : Nat) :
    ¬ Queued wordexp d n (texts line) i := by
  rintro ⟨_, ⟨hus, _⟩ | ⟨t, hit, hfails, _⟩⟩
  · exact (texts_complex_iff.mp hus).2 hblank
  · obtain ⟨u, hu, _⟩ := hfails
    rw [texts_blank hblank, List.getElem?_singleton, if_neg (by omega)] at hu
    cases hu

/-- A segment is reached when no expansion before its own fails. -/
theorem le_length_iff (hus : ∀ u ∈ us, u ∈ complexRule)
    (hqueued : ∀ i, i < q.length ↔ Queued wordexp d n us i) (hu : us[i]? = some u) :
    i ≤ q.length ↔ ∀ j < i, ¬ FailsAt wordexp d n us j := by
  have hi := (List.getElem?_eq_some_iff.mp hu).1
  cases i with
  | zero => exact iff_of_true (Nat.zero_le _) fun j hj => absurd hj (Nat.not_lt_zero j)
  | succ i =>
    rw [Nat.succ_le_iff, hqueued, queued_iff hus, and_iff_right (Nat.lt_of_succ_lt hi)]
    exact forall_congr' fun j => by rw [Nat.lt_succ_iff]

/-- What is asked of the segments up to the end of the queue, as a condition on those that are
reached and do not fail. -/
theorem forall_reached_iff {A B : CString → Prop} (hus : ∀ u ∈ us, u ∈ complexRule)
    (hqueued : ∀ i, i < q.length ↔ Queued wordexp d n us i) :
    (∀ (i : Nat) (u : CString), us[i]? = some u →
        (i ≤ q.length → A u) ∧ (i < q.length → B u)) ↔
      ∀ (i : Nat) (u : CString), us[i]? = some u → (∀ j < i, ¬ FailsAt wordexp d n us j) →
        A u ∧ (¬ FailsAt wordexp d n us i → B u) := by
  refine forall_congr' fun i => forall_congr' fun u => forall_congr' fun hu => ?_
  have hlt : i < q.length ↔ (∀ j < i, ¬ FailsAt wordexp d n us j) ∧ ¬ FailsAt wordexp d n us i := by
    rw [hqueued, queued_iff hus, and_iff_right (List.getElem?_eq_some_iff.mp hu).1]
    simp only [← Nat.lt_succ_iff]
    exact Nat.forall_lt_succ_right
  rw [le_length_iff hus hqueued hu, hlt]
  constructor
  · rintro ⟨hA, hB⟩ hbefore
    exact ⟨hA hbefore, fun hok => hB ⟨hbefore, hok⟩⟩
  · intro h
    exact ⟨fun hbefore => (h hbefore).1, fun hok => (h hok.1).2 hok.2⟩

/-- The texts of the segments of a line that is not blank are those of a run over complexes: they
are read and handed on whole when every segment up to the end of the queue is kept. -/
theorem texts_whole_iff (hus : ∀ u ∈ us, u ∈ complexRule)
    (hstays : ∀ u ∈ us, ¬ Vanishes d.find [] (Cut.before isBlank (typedText u))) :
    ((us.take (n + 1)).map commandText = (us.take (n + 1)).map typedText ∧
        handedOn (fun u => (true, expandedText d u)) (redirectCalls redirectText) n us =
          handedOn (fun u => (true, d.fullText (typedText u))) (redirectCalls typedRedirect) n us) ↔
      ∀ (i : Nat) (u : CString), us[i]? = some u →
        (i ≤ n → CommandKept d u) ∧ (i < n → RedirectionsKept u) := by
  have hcalls : ∀ u, (redirectCalls redirectText u).length =
      (redirectCalls typedRedirect u).length := by
    intro u
    simp only [redirectCalls]
    split <;> split <;> rfl
  have hkept : ∀ (i : Nat) (u : CString), us[i]? = some u →
      (commandText u = typedText u ∧ expandedText d u = d.fullText (typedText u) ↔
        CommandKept d u) := by
    intro i u hu
    have hmem := List.mem_of_getElem? hu
    exact commandKept_iff (hus u hmem) (hstays u hmem)
  rw [map_take_eq_iff, handedOn_eq_iff hcalls]
  constructor
  · rintro ⟨hread, hhanded⟩ i u hu
    refine ⟨fun hi => (hkept i u hu).mp ⟨hread i u hu (Nat.lt_succ_of_le hi), ?_⟩, fun hi => ?_⟩
    · exact (Prod.mk.inj ((hhanded i u hu).1 hi)).2
    · exact redirectCalls_eq_iff.mp ((hhanded i u hu).2 hi)
  · intro h
    have hwhole : ∀ (i : Nat) (u : CString), us[i]? = some u → i ≤ n →
        commandText u = typedText u ∧ expandedText d u = d.fullText (typedText u) :=
      fun i u hu hi => (hkept i u hu).mpr ((h i u hu).1 hi)
    refine ⟨fun i u hu hi => (hwhole i u hu (Nat.le_of_lt_succ hi)).1, fun i u hu => ⟨?_, ?_⟩⟩
    · intro hi
      rw [(hwhole i u hu hi).2]
    · exact fun hi => redirectCalls_eq_iff.mpr ((h i u hu).2 hi)

/-- Every text of an accepted line is cut to its buffer. Where no command vanishes, the queue is
left empty or all texts are whole exactly when the first expansion fails or every segment that is
reached is kept. -/
theorem parseInput_cuts (wordexp : Wordexp) (d : Dictionary) (calls : List ExpandCall)
    (created : Nat) (line : CString) (hline : ∀ c ∈ line, c ≠ 0) (hmain : line ∈ mainRule) :
    ∃ r, parseInput wordexp ⟨d.toAliases, calls, created⟩ line = .ok r ∧
      HandsTexts commandText (expandedText d) redirectText wordexp ⟨d.toAliases, calls, created⟩
        line r ∧
      (NoneVanishes d line →
        (Untruncated wordexp d calls created line r ↔
          FailsAt wordexp d calls.length (segmentTexts line) 0 ∨
            ∀ i u, (segmentTexts line)[i]? = some u →
              (∀ j < i, ¬ FailsAt wordexp d calls.length (segmentTexts line) j) →
              CommandKept d u ∧
                (¬ FailsAt wordexp d calls.length (segmentTexts line) i →
                  RedirectionsKept u))) := by
  obtain ⟨r, hr, _, hqueued⟩ := parseInput_queued wordexp d calls created line hline
  refine ⟨r, hr, ?_⟩
  by_cases hblank : ∀ c ∈ line, classify c = .space
  · have hempty : r.queue = [] := by
      rw [← List.length_eq_zero_iff]
      by_contra hne
      exact not_queued_blank hblank 0 ((hqueued 0).mp (Nat.pos_of_ne_zero hne))
    have hnone : segmentTexts line = [] := by
      rw [segmentTexts, segments, if_pos hblank, List.map_nil]
    refine ⟨.inl hempty, fun _ => iff_of_true (.inl hempty) (.inr fun i u hu => ?_)⟩
    rw [hnone] at hu
    cases hu
  · have hus := texts_complex_iff.mpr ⟨hmain, hblank⟩
    obtain ⟨hreads, hhanded⟩ := parseInput_handsOn hline hus hr
    rw [NoneVanishes, Untruncated, HandsTexts, HandsTexts, segmentTexts_eq hblank, hreads, hhanded]
    refine ⟨.inr ⟨rfl, rfl⟩, fun hstays => ?_⟩
    rw [queue_eq_nil_iff hus (List.cons_ne_nil _ _) hqueued, texts_whole_iff hus hstays,
      forall_reached_iff hus hqueued]

/-- The table after `alias l='ls -l'`. -/
def listAlias : Dictionary := Dictionary.empty.addAlias (bytes "l") (bytes "ls -l")

/-- A `wordexp` that takes every text for one word. -/
def oneWord : Wordexp := fun _ text => some [text]

/-- An alias with an argument, and a redirection. -/
theorem parseInput_cuts_ls :
    ∃ r, parseInput oneWord ⟨listAlias.toAliases, [], 0⟩ (bytes "l src > out; wc") = .ok r ∧
      HandsTexts commandText (expandedText listAlias) redirectText oneWord
        ⟨listAlias.toAliases, [], 0⟩ (bytes "l src > out; wc") r ∧
      (Untruncated oneWord listAlias [] 0 (bytes "l src > out; wc") r ↔
        FailsAt oneWord listAlias 0 (segmentTexts (bytes "l src > out; wc")) 0 ∨
          ∀ i u, (segmentTexts (bytes "l src > out; wc"))[i]? = some u →
            (∀ j < i, ¬ FailsAt oneWord listAlias 0 (segmentTexts (bytes "l src > out; wc")) j) →
            CommandKept listAlias u ∧
              (¬ FailsAt oneWord listAlias 0 (segmentTexts (bytes "l src > out; wc")) i →
                RedirectionsKept u)) := by
  obtain ⟨r, hr, hhands, hiff⟩ := parseInput_cuts oneWord listAlias [] 0
    (bytes "l src > out; wc") (by decide +kernel) (by decide +kernel)
  refine ⟨r, hr, hhands, hiff fun u hu hvan => ?_⟩
  have hwords : ∀ u ∈ segmentTexts (bytes "l src > out; wc"),
      Cut.before isBlank (typedText u) ≠ [] := by decide +kernel
  obtain ⟨v, hv, _, hb, _⟩ := hvan.step_of_ne_nil (hwords u hu)
  rw [listAlias, Dictionary.find_single] at hv
  split at hv
  · cases hv
    exact absurd hb (by decide +kernel)
  · cases hv

/-- One word that does not fit the buffer is cut. -/
theorem not_untruncated_of_isString (d : Dictionary) (calls : List ExpandCall) (created : Nat)
    (hok : ∀ n text, wordexp n text ≠ none) (hstring : IsString line)
    (hlong : bufSize < line.length) (hline : ∀ c ∈ line, c ≠ 0) :
    line ∈ mainRule ∧
      ∀ r, parseInput wordexp ⟨d.toAliases, calls, created⟩ line = .ok r →
        ¬ Untruncated wordexp d calls created line r := by
  obtain ⟨g, _, hw, hcomp, hrender, htextOf, _⟩ := Complex.exists_of_isString hstring
  have htyped : typedText line = line := by
    have h := Complex.typedText_render hw hcomp
    rwa [hrender, htextOf] at h
  have hcomplex : line ∈ complexRule := mem_complexRule.mpr ⟨g, hw, hcomp, hrender⟩
  have hsplit := splitLine_join [] (complexRule_plain hcomplex) (by simp)
  rw [joinRest, List.flatMap_nil, List.append_nil] at hsplit
  have htexts : texts line = [line] := by rw [texts, hsplit, List.map_nil]
  have hus : ∀ u ∈ texts line, u ∈ complexRule := by
    rw [htexts, List.forall_mem_singleton]
    exact hcomplex
  obtain ⟨hmain, hblank⟩ := texts_complex_iff.mp hus
  refine ⟨hmain, fun r hr huntruncated => ?_⟩
  obtain ⟨r', hr', _, hqueued⟩ := parseInput_queued wordexp d calls created line hline
  cases hr.symm.trans hr'
  rcases huntruncated with hempty | ⟨hreads, _⟩
  · obtain ⟨u, _, hfails⟩ := (queue_eq_nil_iff hus (by simp [htexts]) hqueued).mp hempty
    exact hok _ _ hfails
  · rw [(parseInput_handsOn hline hus hr).1, segmentTexts_eq hblank, htexts,
      List.take_succ_cons, List.map_cons, List.map_cons, List.cons.injEq, htyped] at hreads
    have hlen := congrArg List.length hreads.1
    rw [commandText, List.length_take] at hlen
    omega

/-- A command of 1025 bytes. -/
theorem parseInput_truncates :
    ¬ ∀ (wordexp : Wordexp) (d : Dictionary) (calls : List ExpandCall) (created : Nat)
      (line : CString), (∀ c ∈ line, c ≠ 0) → line ∈ mainRule →
      ∃ r, parseInput wordexp ⟨d.toAliases, calls, created⟩ line = .ok r ∧
        Untruncated wordexp d calls created line r := by
  intro hall
  have hword : ∀ c ∈ List.replicate 1025 (97 : UInt8), classify c = .word := by
    intro c hc
    rw [List.eq_of_mem_replicate hc]
    decide
  have hline : ∀ c ∈ List.replicate 1025 (97 : UInt8), c ≠ 0 := by
    intro c hc
    rw [List.eq_of_mem_replicate hc]
    decide
  have hstring : IsString (List.replicate 1025 97) := by
    refine ⟨97, List.replicate 1024 97, List.replicate_succ, by decide, fun c hc => ?_⟩
    exact isText_of_word (hword c (List.mem_cons_of_mem 97 hc))
  have hlong : bufSize < (List.replicate 1025 (97 : UInt8)).length := by
    rw [List.length_replicate]
    decide
  have hok : ∀ n text, oneWord n text ≠ none := fun _ text => Option.some_ne_none [text]
  obtain ⟨hmain, hcut⟩ :=
    not_untruncated_of_isString Dictionary.empty [] 0 hok hstring hlong hline
  obtain ⟨r, hr, huntruncated⟩ := hall _ _ _ _ _ hline hmain
  exact hcut r hr huntruncated

end Redshell
