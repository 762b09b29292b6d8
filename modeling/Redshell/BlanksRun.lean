import Redshell.Blanks

/-! The queues of two lines that differ only in their blanks. -/
namespace Redshell

open Lexemes

/-- A piece that is a complex and fits the buffers, with nothing quoted in its texts. -/
structure Ready (d : Dictionary) (u : CString) : Prop where
  complex : u ∈ complexRule
  short : u.length ≤ bufSize
  unquoted : Unquoted u
  expanded : Unquoted (expandedText d u)

/-- Two pieces with the same lexemes, whose command texts expand to the same words. -/
structure Alike (d : Dictionary) (u₁ u₂ : CString) : Prop where
  left : Ready d u₁
  right : Ready d u₂
  lexemes : lexemesOf u₁ = lexemesOf u₂
  words : wordsOf (expandedText d u₁) = wordsOf (expandedText d u₂)

variable {wordexp : Wordexp} {d : Dictionary} {c : UInt8} {u u₁ u₂ : CString}
  {m : CString → Option CString} {used : List CString} {final cmd result command : CString}
  {rest₁ rest₂ : List (Connector × CString)} {k : Connector} {n n₁ n₂ : Nat} {q : Queue}
  {line line₁ line₂ : CString} {i : Nat}

/-! The text after alias expansion. -/

theorem Unquoted.append {s t : CString} (hs : Unquoted s) (ht : Unquoted t) :
    Unquoted (s ++ t) := by
  intro c hc
  rcases List.mem_append.mp hc with hc | hc
  · exact hs c hc
  · exact ht c hc

theorem Unquoted.sublist {s t : CString} (h : s.Sublist t) (ht : Unquoted t) : Unquoted s :=
  fun c hc => ht c (h.subset hc)

theorem onward_sublist (p : UInt8 → Bool) (s : CString) : (Cut.onward p s).Sublist s :=
  List.dropWhile_sublist _

theorem Rounds.unquoted (h : Rounds m used final cmd result)
    (hvalues : ∀ k v, m k = some v → Unquoted v) (hfinal : Unquoted final) : Unquoted result := by
  induction h with
  | done hd => exact hfinal
  | @again used final cmd v result hv hu _ ih =>
    apply ih
    exact .append (.sublist (List.take_sublist _ _) (hvalues _ _ hv))
      (.sublist (onward_sublist _ _) hfinal)

theorem unquoted_expandAlias (hvalues : ∀ k v, d.find k = some v → Unquoted v)
    (hcommand : Unquoted command) : Unquoted (expandAlias d.toAliases command).1 := by
  obtain ⟨final, hrounds, hexp⟩ := expandAlias_spec d.valid d.released command
  rw [hexp, copyBack_eq]
  split
  · exact .sublist (List.take_sublist _ _) hcommand
  · exact .append (hrounds.unquoted hvalues fun c hc => absurd hc List.not_mem_nil)
      (.sublist (onward_sublist _ _) hcommand)

theorem isGap_of_blank (h : isBlank c = true) : isGap c = true := by
  rw [isBlank, beq_iff_eq] at h
  rw [h]
  decide

/-- The words of a text, cut at its first space. -/
theorem wordsOf_onward (s t : CString) :
    wordsOf (s ++ Cut.onward isBlank t) = wordsOf s ++ wordsOf (Cut.onward isBlank t) :=
  words_append_onward (fun _ hc => isGap_of_blank hc) s t

/-- Texts with the same words and the same name expand to the same words. -/
theorem wordsOf_expandAlias {t₁ t₂ : CString} (hlen₁ : t₁.length ≤ bufSize)
    (hlen₂ : t₂.length ≤ bufSize) (hwords : wordsOf t₁ = wordsOf t₂)
    (hname : Cut.before isBlank t₁ = Cut.before isBlank t₂) :
    wordsOf (expandAlias d.toAliases t₁).1 = wordsOf (expandAlias d.toAliases t₂).1 := by
  obtain ⟨final₁, hrounds₁, hexp₁⟩ := expandAlias_spec d.valid d.released t₁
  obtain ⟨final₂, hrounds₂, hexp₂⟩ := expandAlias_spec d.valid d.released t₂
  rw [hname] at hrounds₁
  obtain rfl := hrounds₁.unique hrounds₂
  rw [hexp₁, hexp₂, copyBack_eq, copyBack_eq]
  split
  · rw [List.take_of_length_le hlen₁, List.take_of_length_le hlen₂, hwords]
  · have hrest : wordsOf (Cut.onward isBlank t₁) = wordsOf (Cut.onward isBlank t₂) := by
      rw [← Cut.before_append_onward isBlank t₁, ← Cut.before_append_onward isBlank t₂,
        wordsOf_onward, wordsOf_onward, hname] at hwords
      exact List.append_cancel_left hwords
    rw [wordsOf_onward, wordsOf_onward, hrest]

/-! The run over the pieces of both lines. -/

theorem isConnector_of_complex (h : u ∈ complexRule) : ∀ c ∈ u, isConnector c = false := by
  intro c hc
  rw [isConnector, complexRule_plain h c hc]
  rfl

theorem unquoted_redirectText (h : Unquoted u) (c : UInt8) : Unquoted (redirectText c u) := by
  refine .sublist ?_ h
  refine (List.take_sublist _ _).trans ((List.takeWhile_sublist _).trans ?_)
  exact (onward_sublist _ _).trans ((List.tail_sublist _).trans (onward_sublist _ u))

theorem Alike.redirectText (h : Alike d u₁ u₂) (hc : isMark c = true) :
    (c ∈ u₁ ↔ c ∈ u₂) ∧ wordsOf (redirectText c u₁) = wordsOf (redirectText c u₂) := by
  refine ⟨mem_iff_of_lexemes hc h.lexemes, ?_⟩
  rw [wordsOf_redirectText hc (isConnector_of_complex h.left.complex) h.left.short,
    wordsOf_redirectText hc (isConnector_of_complex h.right.complex) h.right.short, h.lexemes]

/-- Commands made of pieces that are alike are the same. -/
theorem SegmentMade.eq_of_alike (hdep : DependsOnWords wordexp) (h : Alike d u₁ u₂)
    {command₁ command₂ : Command} (h₁ : SegmentMade wordexp d n₁ u₁ command₁)
    (h₂ : SegmentMade wordexp d n₂ u₂ command₂) (haddr : command₁.addr = command₂.addr)
    (hmask : command₁.connectionMask = command₂.connectionMask) : command₁ = command₂ := by
  have hwordexp : ∀ n n' c, isMark c = true →
      wordexp n (redirectText c u₁) = wordexp n' (redirectText c u₂) := fun n n' c hc =>
    hdep _ _ _ _ (unquoted_redirectText h.left.unquoted c)
      (unquoted_redirectText h.right.unquoted c) (h.redirectText hc).2
  have hin : 60 ∈ u₁ ↔ 60 ∈ u₂ := (h.redirectText (by decide)).1
  have hout : 62 ∈ u₁ ↔ 62 ∈ u₂ := (h.redirectText (by decide)).1
  obtain ⟨⟨words₁, hwords₁, hargv₁, hpath₁⟩, hfrom₁, hto₁⟩ := h₁
  obtain ⟨⟨words₂, hwords₂, hargv₂, hpath₂⟩, hfrom₂, hto₂⟩ := h₂
  rw [hdep n₁ n₂ _ _ h.left.expanded h.right.expanded h.words, hwords₂] at hwords₁
  obtain rfl := Option.some.inj hwords₁
  obtain ⟨addr₁, path₁, argv₁, to₁, from₁, mask₁⟩ := command₁
  obtain ⟨addr₂, path₂, argv₂, to₂, from₂, mask₂⟩ := command₂
  dsimp only at haddr hmask hargv₁ hpath₁ hfrom₁ hto₁ hargv₂ hpath₂ hfrom₂ hto₂
  rw [haddr, hmask, hargv₁, hargv₂, hpath₁, hpath₂, hfrom₁, hfrom₂, hto₁, hto₂]
  simp only [hin, hout, hwordexp (n₁ + 1) (n₂ + 1) 60 (by decide),
    hwordexp (n₁ + 1 + if 60 ∈ u₂ then 1 else 0) (n₂ + 1 + if 60 ∈ u₂ then 1 else 0) 62
      (by decide)]

/-- What the end of two pieces that are alike gives. -/
theorem finish_alike (hdep : DependsOnWords wordexp) {g₁ g₂ : Complex}
    (h : Alike d g₁.render g₂.render) (hw₁ : g₁.WellFormed) (hw₂ : g₂.WellFormed)
    (hcomp₁ : g₁.Complete) (hcomp₂ : g₂.Complete) (addr : Nat) (mask : Connection)
    (ss₁ ss₂ : Session) (hss₁ : ss₁.aliases = d.toAliases) (hss₂ : ss₂.aliases = d.toAliases)
    (hcreated : ss₁.created = ss₂.created) :
    (∃ ss₁' ss₂', g₁.finish wordexp addr mask ss₁ = (none, ss₁') ∧
        g₂.finish wordexp addr mask ss₂ = (none, ss₂')) ∨
      ∃ command ss₁' ss₂', g₁.finish wordexp addr mask ss₁ = (some command, ss₁') ∧
        g₂.finish wordexp addr mask ss₂ = (some command, ss₂') ∧
        ss₁'.aliases = d.toAliases ∧ ss₂'.aliases = d.toAliases ∧ ss₁'.created = ss₂'.created := by
  have hfin₁ := finish_spec wordexp ss₁ hss₁ hw₁ hcomp₁ addr mask
  have hfin₂ := finish_spec wordexp ss₂ hss₂ hw₂ hcomp₂ addr mask
  rw [hdep _ ss₂.calls.length _ _ h.left.expanded h.right.expanded h.words] at hfin₁
  cases hwords : wordexp ss₂.calls.length (expandedText d g₂.render) with
  | none =>
    rw [hwords] at hfin₁ hfin₂
    obtain ⟨ss₁', hfin₁⟩ := hfin₁
    obtain ⟨ss₂', hfin₂⟩ := hfin₂
    exact .inl ⟨ss₁', ss₂', hfin₁, hfin₂⟩
  | some words =>
    rw [hwords] at hfin₁ hfin₂
    obtain ⟨command₁, ss₁', hfin₁, hd₁, hcreated₁, _, haddr₁, hmask₁, hmade₁⟩ := hfin₁
    obtain ⟨command₂, ss₂', hfin₂, hd₂, hcreated₂, _, haddr₂, hmask₂, hmade₂⟩ := hfin₂
    obtain rfl := hmade₁.eq_of_alike hdep h hmade₂ (haddr₁.trans haddr₂.symm)
      (hmask₁.trans hmask₂.symm)
    refine .inr ⟨command₁, ss₁', ss₂', hfin₁, hfin₂, hd₁, hd₂, ?_⟩
    rw [hcreated₁, hcreated₂, hcreated]

/-- The masks that the actions leave in pieces with the same lexemes. -/
theorem keptMask_alike (h : lexemesOf u₁ = lexemesOf u₂) (next : Option Connector) :
    keptMask (u₁, next) = keptMask (u₂, next) := by
  have hamp : 38 ∈ u₁ ↔ 38 ∈ u₂ := mem_iff_of_lexemes (by decide) h
  simp only [keptMask, segmentMask, hamp]

/-- Runs over pieces that are alike leave the same queue. -/
theorem interpret_alike (hdep : DependsOnWords wordexp) (first : Bool) (queue : Queue)
    (hu : Alike d u₁ u₂)
    (hrest : List.Forall₂ (fun p₁ p₂ => p₁.1 = p₂.1 ∧ Alike d p₁.2 p₂.2) rest₁ rest₂)
    {ss₁ ss₂ : Session} (hss₁ : ss₁.aliases = d.toAliases) (hss₂ : ss₂.aliases = d.toAliases)
    (hcreated : ss₁.created = ss₂.created) :
    (interpret wordexp rest₁ first none u₁ queue ss₁).queue =
      (interpret wordexp rest₂ first none u₂ queue ss₂).queue := by
  induction hrest generalizing u₁ u₂ first queue ss₁ ss₂ with
  | nil =>
    obtain ⟨g₁, hg₁, hcomp₁⟩ := mem_complexRule_iff_scan.mp hu.left.complex
    obtain ⟨g₂, hg₂, hcomp₂⟩ := mem_complexRule_iff_scan.mp hu.right.complex
    obtain ⟨hr₁, hw₁⟩ := Complex.scan_render Complex.wellFormed_empty hg₁
    obtain ⟨hr₂, hw₂⟩ := Complex.scan_render Complex.wellFormed_empty hg₂
    obtain rfl : g₁.render = u₁ := hr₁
    obtain rfl : g₂.render = u₂ := hr₂
    have hmask : g₁.mask = g₂.mask := by
      rw [← (keptMask_eq hw₁ hcomp₁).1, ← (keptMask_eq hw₂ hcomp₂).1]
      exact keptMask_alike hu.lexemes none
    rw [interpret_last hg₁ hcomp₁, interpret_last hg₂ hcomp₂, hmask, hcreated]
    rcases finish_alike hdep hu hw₁ hw₂ hcomp₁ hcomp₂ ss₂.created g₂.mask
        { ss₁ with created := ss₂.created + 1 } { ss₂ with created := ss₂.created + 1 }
        hss₁ hss₂ rfl with
      ⟨ss₁', ss₂', hfin₁, hfin₂⟩ | ⟨command, ss₁', ss₂', hfin₁, hfin₂, _⟩
    · rw [hfin₁, hfin₂]
      rfl
    · rw [hfin₁, hfin₂]
      rfl
  | @cons p₁ p₂ rest₁ rest₂ hp hrest ih =>
    obtain ⟨k, v₁⟩ := p₁
    obtain ⟨k₂, v₂⟩ := p₂
    obtain ⟨hk, hv⟩ := hp
    obtain rfl : k = k₂ := hk
    obtain ⟨g₁, hg₁, hcomp₁⟩ := mem_complexRule_iff_scan.mp hu.left.complex
    obtain ⟨g₂, hg₂, hcomp₂⟩ := mem_complexRule_iff_scan.mp hu.right.complex
    obtain ⟨hr₁, hw₁⟩ := Complex.scan_render Complex.wellFormed_empty hg₁
    obtain ⟨hr₂, hw₂⟩ := Complex.scan_render Complex.wellFormed_empty hg₂
    obtain rfl : g₁.render = u₁ := hr₁
    obtain rfl : g₂.render = u₂ := hr₂
    have hmask : k.mask g₁ = k.mask g₂ := by
      rw [← (keptMask_eq hw₁ hcomp₁).2, ← (keptMask_eq hw₂ hcomp₂).2]
      exact keptMask_alike hu.lexemes (some k)
    have hopens : ∀ {v}, v ∈ complexRule → opens v = true := by
      intro v hv
      obtain ⟨g, hg, hcomp⟩ := mem_complexRule_iff_scan.mp hv
      exact opens_of_scan hg hcomp
    rw [interpret_cons k hg₁ hcomp₁, interpret_cons k hg₂ hcomp₂, hmask, hcreated,
      if_pos (hopens hv.left.complex), if_pos (hopens hv.right.complex)]
    rcases finish_alike hdep hu hw₁ hw₂ hcomp₁ hcomp₂ ss₂.created (k.mask g₂)
        { ss₁ with created := ss₂.created + 1 } { ss₂ with created := ss₂.created + 1 }
        hss₁ hss₂ rfl with
      ⟨ss₁', ss₂', hfin₁, hfin₂⟩ | ⟨command, ss₁', ss₂', hfin₁, hfin₂, hd₁, hd₂, hcreated'⟩
    · rw [hfin₁, hfin₂]
      rfl
    · rw [hfin₁, hfin₂]
      exact ih false (queueInsert queue command) hv hd₁ hd₂ hcreated'

/-! Two lines with the same lexemes. -/

/-- A line of the grammar that fits the buffers and quotes nothing. -/
structure Typed (line : CString) : Prop where
  nonzero : ∀ c ∈ line, c ≠ 0
  accepted : line ∈ mainRule
  short : line.length ≤ bufSize
  unquoted : Unquoted line

/-- The two lines give the same queue with the aliases of a table. -/
def SameQueue (d : Dictionary) (line₁ line₂ : CString) : Prop :=
  ∀ wordexp, DependsOnWords wordexp → ∀ calls created r₁ r₂,
    parseInput wordexp ⟨d.toAliases, calls, created⟩ line₁ = .ok r₁ →
    parseInput wordexp ⟨d.toAliases, calls, created⟩ line₂ = .ok r₂ → r₁.queue = r₂.queue

/-- The command texts of the two lines expand to the same words. -/
def SameWords (d : Dictionary) (line₁ line₂ : CString) : Prop :=
  ∀ (i : Nat) (u₁ u₂ : CString), (texts line₁)[i]? = some u₁ → (texts line₂)[i]? = some u₂ →
    wordsOf (expandedText d u₁) = wordsOf (expandedText d u₂)

/-- The command texts of the two lines agree up to their first space. -/
def SameNames (line₁ line₂ : CString) : Prop :=
  ∀ (i : Nat) (u₁ u₂ : CString), (texts line₁)[i]? = some u₁ → (texts line₂)[i]? = some u₂ →
    Cut.before isBlank (commandText u₁) = Cut.before isBlank (commandText u₂)

theorem sublist_joinRest (rest : List (Connector × CString)) :
    ∀ p ∈ rest, p.2.Sublist (joinRest rest) := by
  intro p hp
  have hpiece := List.sublist_flatten_of_mem
    (List.mem_map_of_mem (f := fun p : Connector × CString => p.1.byte :: p.2) hp)
  rw [joinRest, List.flatMap_def]
  exact (List.sublist_cons_self _ _).trans hpiece

theorem texts_sublist (hu : u ∈ texts line) : u.Sublist line := by
  have hjoin := joinRest_splitLine line
  rcases List.mem_cons.mp hu with rfl | hu
  · conv_rhs => rw [← hjoin]
    exact List.sublist_append_left _ _
  · obtain ⟨p, hp, rfl⟩ := List.mem_map.mp hu
    conv_rhs => rw [← hjoin]
    exact (sublist_joinRest _ p hp).trans (List.sublist_append_right _ _)

/-- A line of whitespace keeps being one. -/
theorem blank_iff_strip (line : CString) :
    (∀ c ∈ line, classify c = .space) ↔ strip isSpace (lexemesOf line) = [] := by
  rw [← lexemesOf_skipSpaces, skipSpaces_eq]
  have hspace : (∀ c ∈ line, classify c = .space) ↔ line.dropWhile isSpace = [] := by
    rw [List.dropWhile_eq_nil_iff]
    simp only [isSpace, decide_eq_true_eq]
  rw [hspace]
  constructor
  · intro h
    rw [h]
    rfl
  · intro h
    cases hdrop : line.dropWhile isSpace with
    | nil => rfl
    | cons c s =>
      have hc : isGap c = false := by
        have hhead := List.head?_dropWhile_not isSpace line
        rw [hdrop] at hhead
        by_contra hgap
        have hspace := isSpace_of_gap (Bool.not_eq_false _ ▸ hgap)
        simp [hspace] at hhead
      obtain ⟨y, ys, hlex⟩ := exists_lexemes_cons isOperator s hc
      rw [hdrop, lexemesOf, hlex] at h
      cases h

theorem blank_iff_of_lexemes {line₁ line₂ : CString}
    (hlex : lexemesOf line₁ = lexemesOf line₂) :
    (∀ c ∈ line₁, classify c = .space) ↔ ∀ c ∈ line₂, classify c = .space := by
  rw [blank_iff_strip, blank_iff_strip, hlex]

theorem forall₂_of_getElem {α β : Type} {R S : α → β → Prop} {l₁ : List α} {l₂ : List β}
    (h : List.Forall₂ R l₁ l₂)
    (hS : ∀ (i : Nat) a b, l₁[i]? = some a → l₂[i]? = some b → R a b → S a b) :
    List.Forall₂ S l₁ l₂ := by
  induction h with
  | nil => exact .nil
  | cons hab _ ih =>
    exact .cons (hS 0 _ _ rfl rfl hab) (ih fun i a b ha hb => hS (i + 1) a b ha hb)

theorem getElem_of_forall₂ {α β : Type} {R : α → β → Prop} {l₁ : List α} {l₂ : List β}
    (h : List.Forall₂ R l₁ l₂) {i : Nat} {a : α} {b : β} (ha : l₁[i]? = some a)
    (hb : l₂[i]? = some b) : R a b := by
  induction h generalizing i with
  | nil => cases ha
  | cons hab _ ih =>
    cases i with
    | zero =>
      cases ha
      cases hb
      exact hab
    | succ i => exact ih ha hb

theorem Typed.ready (h : Typed line) (hblank : ¬ ∀ c ∈ line, classify c = .space)
    (hvalues : ∀ k v, d.find k = some v → Unquoted v) (hu : u ∈ texts line) : Ready d u := by
  have hsub := texts_sublist hu
  have hunquoted := h.unquoted.sublist hsub
  refine ⟨texts_complex_iff.mpr ⟨h.accepted, hblank⟩ u hu, hsub.length_le.trans h.short,
    hunquoted, unquoted_expandAlias hvalues ?_⟩
  refine .sublist ?_ hunquoted
  exact (List.take_sublist _ _).trans ((List.takeWhile_sublist _).trans (onward_sublist _ u))

/-- The pieces of the lines, with the same connectors and lexemes. -/
theorem pieces_of_lexemes (h₁ : Typed line₁) (h₂ : Typed line₂)
    (hblank : ¬ ∀ c ∈ line₁, classify c = .space) (hlex : lexemesOf line₁ = lexemesOf line₂) :
    (¬ ∀ c ∈ line₂, classify c = .space) ∧
      lexemesOf (splitLine line₁).1 = lexemesOf (splitLine line₂).1 ∧
      List.Forall₂ (fun p₁ p₂ => p₁.1 = p₂.1 ∧ lexemesOf p₁.2 = lexemesOf p₂.2)
        (splitLine line₁).2 (splitLine line₂).2 := by
  have hblank₂ := (blank_iff_of_lexemes hlex).not.mp hblank
  obtain ⟨hu₁, hrest₁⟩ := (mem_mainRule.mp h₁.accepted).resolve_left hblank
  obtain ⟨hu₂, hrest₂⟩ := (mem_mainRule.mp h₂.accepted).resolve_left hblank₂
  rw [← joinRest_splitLine line₁, ← joinRest_splitLine line₂] at hlex
  exact ⟨hblank₂, pieces_alike (isConnector_of_complex hu₁) (isConnector_of_complex hu₂)
    (fun p hp => isConnector_of_complex (hrest₁ p hp))
    (fun p hp => isConnector_of_complex (hrest₂ p hp)) hlex⟩

theorem commandText_blank (hblank : ∀ c ∈ u, classify c = .space) : commandText u = [] := by
  have hskip : skipSpaces u = [] := by
    rw [skipSpaces_eq, List.dropWhile_eq_nil_iff]
    simpa [isSpace] using hblank
  rw [commandText, hskip]
  rfl

/-- Lines of whitespace have one text, without a command. -/
theorem commandText_of_blank (hblank : ∀ c ∈ line, classify c = .space)
    (hu : (texts line)[i]? = some u) : commandText u = [] := by
  rw [texts_blank hblank] at hu
  obtain rfl := List.mem_singleton.mp (List.mem_of_getElem? hu)
  exact commandText_blank hblank

theorem sameQueue_of_sameWords (h₁ : Typed line₁) (h₂ : Typed line₂)
    (hlex : lexemesOf line₁ = lexemesOf line₂)
    (hvalues : ∀ k v, d.find k = some v → Unquoted v) (h : SameWords d line₁ line₂) :
    SameQueue d line₁ line₂ := by
  intro wordexp hdep calls created r₁ r₂ hr₁ hr₂
  obtain ⟨r, hr, hqueue₁, _⟩ := parseInput_spec wordexp ⟨d.toAliases, calls, created⟩ h₁.nonzero
  cases hr₁.symm.trans hr
  obtain ⟨r, hr, hqueue₂, _⟩ := parseInput_spec wordexp ⟨d.toAliases, calls, created⟩ h₂.nonzero
  cases hr₂.symm.trans hr
  rw [hqueue₁, hqueue₂, interpretLine, interpretLine]
  by_cases hblank : ∀ c ∈ line₁, classify c = .space
  · have hblank₂ := (blank_iff_of_lexemes hlex).mp hblank
    rw [splitLine_blank hblank, splitLine_blank hblank₂]
    obtain ⟨ss₁, hrun₁⟩ := interpret_blank wordexp queueNew ⟨d.toAliases, calls, created⟩ hblank
    obtain ⟨ss₂, hrun₂⟩ := interpret_blank wordexp queueNew ⟨d.toAliases, calls, created⟩ hblank₂
    rw [hrun₁, hrun₂]
    rfl
  · obtain ⟨hblank₂, hpiece, hpieces⟩ := pieces_of_lexemes h₁ h₂ hblank hlex
    have hready₁ : ∀ u ∈ texts line₁, Ready d u := fun u hu => h₁.ready hblank hvalues hu
    have hready₂ : ∀ u ∈ texts line₂, Ready d u := fun u hu => h₂.ready hblank₂ hvalues hu
    refine interpret_alike hdep true queueNew ⟨hready₁ _ List.mem_cons_self,
      hready₂ _ List.mem_cons_self, hpiece, h 0 _ _ rfl rfl⟩ ?_ rfl rfl rfl
    refine forall₂_of_getElem hpieces fun i p₁ p₂ hp₁ hp₂ hp => ⟨hp.1, ?_⟩
    have hu₁ : (texts line₁)[i + 1]? = some p₁.2 := by
      rw [texts, List.getElem?_cons_succ, List.getElem?_map, hp₁]
      rfl
    have hu₂ : (texts line₂)[i + 1]? = some p₂.2 := by
      rw [texts, List.getElem?_cons_succ, List.getElem?_map, hp₂]
      rfl
    exact ⟨hready₁ _ (List.mem_of_getElem? hu₁), hready₂ _ (List.mem_of_getElem? hu₂), hp.2,
      h (i + 1) _ _ hu₁ hu₂⟩

/-- A `wordexp` that gives the words of its text. -/
def giveWords : Wordexp := fun _ text => some (wordsOf text)

/-- The words of the commands in the queue, when `wordexp` gives the words of its text. -/
theorem exists_argv (h : Typed line) (hblank : ¬ ∀ c ∈ line, classify c = .space)
    (d : Dictionary) :
    ∃ r, parseInput giveWords ⟨d.toAliases, [], 0⟩ line = .ok r ∧
      ∀ (i : Nat) u, (texts line)[i]? = some u →
        ∃ cmd, r.queue[i]? = some cmd ∧ cmd.argv = some (wordsOf (expandedText d u)) := by
  obtain ⟨r, hr, hmakes, hqueued⟩ := parseInput_queued giveWords d [] 0 line h.nonzero
  refine ⟨r, hr, fun i u hu => ?_⟩
  have hus := texts_complex_iff.mpr ⟨h.accepted, hblank⟩
  have hi : i < r.queue.length := by
    rw [hqueued, queued_iff hus]
    refine ⟨(List.getElem?_eq_some_iff.mp hu).1, ?_⟩
    rintro j _ ⟨v, _, hnone⟩
    cases hnone
  have hcmd : r.queue[i]? = some r.queue[i] := List.getElem?_eq_getElem hi
  obtain ⟨v, hv, hmade⟩ := hmakes.made i _ hcmd
  cases hu.symm.trans hv
  obtain ⟨words, hwords, hargv, _⟩ := hmade.words
  cases hwords
  exact ⟨r.queue[i], hcmd, hargv⟩

theorem giveWords_dependsOnWords : DependsOnWords giveWords := by
  intro n n' s t _ _ hwords
  rw [giveWords, giveWords, hwords]

theorem sameWords_of_sameQueue (h₁ : Typed line₁) (h₂ : Typed line₂)
    (hlex : lexemesOf line₁ = lexemesOf line₂) (h : SameQueue d line₁ line₂) :
    SameWords d line₁ line₂ := by
  intro i u₁ u₂ hu₁ hu₂
  by_cases hblank : ∀ c ∈ line₁, classify c = .space
  · have hblank₂ := (blank_iff_of_lexemes hlex).mp hblank
    rw [expandedText, expandedText, commandText_of_blank hblank hu₁,
      commandText_of_blank hblank₂ hu₂]
  · obtain ⟨hblank₂, _⟩ := pieces_of_lexemes h₁ h₂ hblank hlex
    obtain ⟨r₁, hr₁, hargv₁⟩ := exists_argv h₁ hblank d
    obtain ⟨r₂, hr₂, hargv₂⟩ := exists_argv h₂ hblank₂ d
    obtain ⟨cmd₁, hcmd₁, hwords₁⟩ := hargv₁ i u₁ hu₁
    obtain ⟨cmd₂, hcmd₂, hwords₂⟩ := hargv₂ i u₂ hu₂
    rw [h giveWords giveWords_dependsOnWords [] 0 r₁ r₂ hr₁ hr₂, hcmd₂] at hcmd₁
    cases hcmd₁
    exact Option.some.inj (hwords₁.symm.trans hwords₂)

/-! The names that are looked up. -/

/-- The texts of a line with the same lexemes have the same words. -/
theorem wordsOf_commandText_eq (h₁ : Typed line₁) (h₂ : Typed line₂)
    (hlex : lexemesOf line₁ = lexemesOf line₂) (hu₁ : (texts line₁)[i]? = some u₁)
    (hu₂ : (texts line₂)[i]? = some u₂) :
    wordsOf (commandText u₁) = wordsOf (commandText u₂) := by
  by_cases hblank : ∀ c ∈ line₁, classify c = .space
  · have hblank₂ := (blank_iff_of_lexemes hlex).mp hblank
    rw [commandText_of_blank hblank hu₁, commandText_of_blank hblank₂ hu₂]
  · obtain ⟨hblank₂, hpiece, hpieces⟩ := pieces_of_lexemes h₁ h₂ hblank hlex
    have htexts : List.Forall₂ (fun u₁ u₂ => lexemesOf u₁ = lexemesOf u₂) (texts line₁)
        (texts line₂) := by
      refine .cons hpiece ?_
      rw [List.forall₂_map_left_iff, List.forall₂_map_right_iff]
      exact hpieces.imp fun p₁ p₂ hp => hp.2
    have hcomplex₁ := texts_complex_iff.mpr ⟨h₁.accepted, hblank⟩ u₁ (List.mem_of_getElem? hu₁)
    have hcomplex₂ := texts_complex_iff.mpr ⟨h₂.accepted, hblank₂⟩ u₂ (List.mem_of_getElem? hu₂)
    rw [wordsOf_commandText (isConnector_of_complex hcomplex₁)
        ((texts_sublist (List.mem_of_getElem? hu₁)).length_le.trans h₁.short),
      wordsOf_commandText (isConnector_of_complex hcomplex₂)
        ((texts_sublist (List.mem_of_getElem? hu₂)).length_le.trans h₂.short),
      getElem_of_forall₂ htexts hu₁ hu₂]

theorem length_commandText (u : CString) : (commandText u).length ≤ bufSize :=
  List.length_take_le _ _

theorem sameWords_of_sameNames (h₁ : Typed line₁) (h₂ : Typed line₂)
    (hlex : lexemesOf line₁ = lexemesOf line₂) (h : SameNames line₁ line₂) (d : Dictionary) :
    SameWords d line₁ line₂ := by
  intro i u₁ u₂ hu₁ hu₂
  exact wordsOf_expandAlias (length_commandText u₁) (length_commandText u₂)
    (wordsOf_commandText_eq h₁ h₂ hlex hu₁ hu₂) (h i u₁ u₂ hu₁ hu₂)

/-- The values of the table quote nothing, and every expansion of the line fits the buffers. -/
structure Admits (d : Dictionary) (line : CString) : Prop where
  values : ∀ k v, d.find k = some v → Unquoted v ∧ v.length ≤ bufSize
  fits : ∀ u ∈ texts line, ∀ values,
    Leads d.find [] (Cut.before isBlank (commandText u)) values →
      Fits (Cut.onward isBlank (commandText u)).length 0 values

/-- Expansion with one alias, whose value is a single letter. -/
theorem expandAlias_letter {name : CString} (hc : [c] ≠ name) (hword : isBlank c = false)
    (t : CString) :
    (expandAlias (Dictionary.empty.addAlias name [c]).toAliases t).1 =
      if Cut.before isBlank t = name then c :: Cut.onward isBlank t else t.take bufSize := by
  obtain ⟨final, hrounds, hexp⟩ := expandAlias_spec (Dictionary.empty.addAlias name [c]).valid
    (Dictionary.empty.addAlias name [c]).released t
  have hself : Cut.before isBlank [c] = [c] := Cut.before_of_none (by simpa using hword)
  rw [hexp, copyBack_eq]
  dsimp only
  by_cases hname : Cut.before isBlank t = name
  · rw [hname] at hrounds
    have hletter : Rounds (Dictionary.empty.addAlias name [c]).find [] [] name [c] := by
      refine .again (v := [c]) ?_ List.not_mem_nil (.done (.inl ?_))
      · rw [Dictionary.find_single, if_pos rfl]
      · rw [Dictionary.find_single, hself, if_neg hc]
    obtain rfl := hrounds.unique hletter
    rw [if_neg (List.cons_ne_nil _ _), if_pos hname]
    rfl
  · have hnone : Rounds (Dictionary.empty.addAlias name [c]).find [] [] (Cut.before isBlank t)
        [] := by
      refine .done (.inl ?_)
      rw [Dictionary.find_single, if_neg hname]
    obtain rfl := hrounds.unique hnone
    rw [if_pos rfl, if_neg hname]

theorem admits_letter {name : CString} (hname : name ≠ []) (hc : [c] ≠ name)
    (hword : isBlank c = false) (hletter : Unquoted [c]) (line : CString) :
    Admits (Dictionary.empty.addAlias name [c]) line := by
  have hself : Cut.before isBlank [c] = [c] := Cut.before_of_none (by simpa using hword)
  refine ⟨fun k v hv => ?_, fun u _ values hvalues => ?_⟩
  · rw [Dictionary.find_single] at hv
    split at hv
    · cases hv
      exact ⟨hletter, Nat.succ_le_of_lt (by decide)⟩
    · cases hv
  · cases hvalues with
    | stop => trivial
    | step hv hu hrest =>
      rw [Dictionary.find_single] at hv
      split at hv
      · next hbefore =>
        cases hv
        rw [hself] at hrest
        cases hrest with
        | stop =>
          have hlen := congrArg List.length (Cut.before_append_onward isBlank (commandText u))
          have hpos := List.length_pos_of_ne_nil hname
          have hle := length_commandText u
          rw [hbefore, List.length_append] at hlen
          change 1 + 0 + _ ≤ bufSize
          omega
        | step hv' =>
          rw [Dictionary.find_single, if_neg hc] at hv'
          cases hv'
      · cases hv

theorem name_ne_nil (hu : u ∈ complexRule) : Cut.before isBlank (commandText u) ≠ [] := by
  obtain ⟨c, t, ht, hblank⟩ := Complex.typedText_cons hu
  have hcut : commandText u = c :: t.take (bufSize - 1) := congrArg (·.take bufSize) ht
  rw [hcut]
  exact Cut.before_cons_ne_nil hblank

/-- There is a letter that is not all the words of a text. -/
theorem exists_letter (xs : List CString) :
    ∃ c : UInt8, wordsOf [c] = [[c]] ∧ [[c]] ≠ xs ∧ isBlank c = false ∧ Unquoted [c] := by
  have hunquoted : ∀ c : UInt8, c ≠ 34 ∧ c ≠ 39 ∧ c ≠ 92 → Unquoted [c] := by
    intro c hc a ha
    obtain rfl := List.mem_singleton.mp ha
    exact hc
  by_cases hx : xs = [[120]]
  · refine ⟨121, by decide, ?_, by decide, hunquoted 121 (by decide)⟩
    rw [hx]
    decide
  · exact ⟨120, by decide, fun h => hx h.symm, by decide, hunquoted 120 (by decide)⟩

/-- When a name differs, an alias for it is expanded in one line only. -/
theorem sameNames_of_sameQueue (h₁ : Typed line₁) (h₂ : Typed line₂)
    (hlex : lexemesOf line₁ = lexemesOf line₂)
    (h : ∀ d, Admits d line₁ → Admits d line₂ → SameQueue d line₁ line₂) :
    SameNames line₁ line₂ := by
  intro i u₁ u₂ hu₁ hu₂
  by_cases hblank : ∀ c ∈ line₁, classify c = .space
  · have hblank₂ := (blank_iff_of_lexemes hlex).mp hblank
    rw [commandText_of_blank hblank hu₁, commandText_of_blank hblank₂ hu₂]
  · by_contra hne
    have hcomplex := texts_complex_iff.mpr ⟨h₁.accepted, hblank⟩ u₁ (List.mem_of_getElem? hu₁)
    obtain ⟨c, hletter, hwords, hblank, hunquoted⟩ :=
      exists_letter (wordsOf (Cut.before isBlank (commandText u₁)))
    have hname : [c] ≠ Cut.before isBlank (commandText u₁) := by
      intro heq
      rw [← heq, hletter] at hwords
      exact hwords rfl
    have hadmits := admits_letter (name_ne_nil hcomplex) hname hblank hunquoted
    have hsame := sameWords_of_sameQueue h₁ h₂ hlex (h _ (hadmits line₁) (hadmits line₂)) i u₁ u₂
      hu₁ hu₂
    rw [expandedText, expandedText, expandAlias_letter hname hblank, if_pos rfl,
      expandAlias_letter hname hblank, if_neg (Ne.symm hne),
      List.take_of_length_le (length_commandText u₂), ← wordsOf_commandText_eq h₁ h₂ hlex hu₁ hu₂]
      at hsame
    have hleft := wordsOf_onward [c] (commandText u₁)
    have hright := wordsOf_onward (Cut.before isBlank (commandText u₁)) (commandText u₁)
    rw [Cut.before_append_onward] at hright
    rw [← List.singleton_append, hleft, hright, hletter] at hsame
    exact hwords (List.append_cancel_right hsame)

/-- Two lines that differ in their blanks only give the same queue whatever the aliases exactly when
their command texts agree up to the first space. -/
theorem parseInput_blanks_iff (line₁ line₂ : CString) (h₁ : Typed line₁) (h₂ : Typed line₂)
    (hlex : lexemesOf line₁ = lexemesOf line₂) :
    (∀ d, Admits d line₁ → Admits d line₂ → SameQueue d line₁ line₂) ↔
      SameNames line₁ line₂ := by
  constructor
  · exact sameNames_of_sameQueue h₁ h₂ hlex
  · intro hnames d hadmits _
    exact sameQueue_of_sameWords h₁ h₂ hlex (fun k v hv => (hadmits.values k v hv).1)
      (sameWords_of_sameNames h₁ h₂ hlex hnames d)

theorem typed_of_check {line : CString}
    (h : (line.all fun c => c != 0 && c != 34 && c != 39 && c != 92) = true)
    (hmain : line ∈ mainRule) (hlen : line.length ≤ bufSize) : Typed line := by
  have hall := List.all_eq_true.mp h
  simp only [Bool.and_eq_true, bne_iff_ne] at hall
  refine ⟨fun c hc => (hall c hc).1.1.1, hmain, hlen, fun c hc => ?_⟩
  exact ⟨(hall c hc).1.1.2, (hall c hc).1.2, (hall c hc).2⟩

/-- Blanks around the operators. -/
theorem parseInput_blanks_iff_ls :
    (∀ d, Admits d (bytes "ls|wc >out") → Admits d (bytes "  ls\t| wc   > out ") →
        SameQueue d (bytes "ls|wc >out") (bytes "  ls\t| wc   > out ")) ↔
      SameNames (bytes "ls|wc >out") (bytes "  ls\t| wc   > out ") :=
  parseInput_blanks_iff _ _
    (typed_of_check (by decide +kernel) (by decide +kernel) (by decide +kernel))
    (typed_of_check (by decide +kernel) (by decide +kernel) (by decide +kernel))
    (by decide +kernel)

/-- After `alias l=w`, a tab after the name keeps it from being expanded. -/
theorem parseInput_tab :
    ¬ ∀ (d : Dictionary) (line₁ line₂ : CString), Typed line₁ → Typed line₂ →
      lexemesOf line₁ = lexemesOf line₂ → Admits d line₁ → Admits d line₂ →
      SameQueue d line₁ line₂ := by
  intro hall
  have hname : bytes "l" ≠ [] := by decide
  have hadmits := admits_letter (c := 119) hname (by decide) (by decide)
    (by intro c hc; obtain rfl := List.mem_singleton.mp hc; decide)
  have hsame := hall (Dictionary.empty.addAlias (bytes "l") [119]) (bytes "l a") (bytes "l\ta")
    (typed_of_check (by decide +kernel) (by decide +kernel) (by decide +kernel))
    (typed_of_check (by decide +kernel) (by decide +kernel) (by decide +kernel))
    (by decide +kernel) (hadmits _) (hadmits _)
  obtain ⟨r₁, hr₁, _⟩ := exists_parse giveWords
    ⟨(Dictionary.empty.addAlias (bytes "l") [119]).toAliases, [], 0⟩ (bytes "l a")
    (by decide +kernel)
  obtain ⟨r₂, hr₂, _⟩ := exists_parse giveWords
    ⟨(Dictionary.empty.addAlias (bytes "l") [119]).toAliases, [], 0⟩ (bytes "l\ta")
    (by decide +kernel)
  have hargv₁ : (parseInput giveWords
      ⟨(Dictionary.empty.addAlias (bytes "l") [119]).toAliases, [], 0⟩ (bytes "l a")).map
      (fun r => r.queue.map (·.argv)) = .ok [some [bytes "w", bytes "a"]] := by decide +kernel
  have hargv₂ : (parseInput giveWords
      ⟨(Dictionary.empty.addAlias (bytes "l") [119]).toAliases, [], 0⟩ (bytes "l\ta")).map
      (fun r => r.queue.map (·.argv)) = .ok [some [bytes "l", bytes "a"]] := by decide +kernel
  rw [hr₁] at hargv₁
  rw [hr₂] at hargv₂
  have hqueue := hsame giveWords giveWords_dependsOnWords [] 0 r₁ r₂ hr₁ hr₂
  have hleft : r₁.queue.map (·.argv) = [some [bytes "w", bytes "a"]] := Except.ok.inj hargv₁
  have hright : r₂.queue.map (·.argv) = [some [bytes "l", bytes "a"]] := Except.ok.inj hargv₂
  rw [hqueue, hright] at hleft
  exact absurd hleft (by decide)

end Redshell
