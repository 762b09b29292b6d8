import Redshell.Grammar

/-! The segments of a line read as text, and the commands they make. -/
namespace Redshell

/-- The operators that end a text within a segment. -/
def isMark (c : UInt8) : Bool := c == 60 || c == 62 || c == 38

/-- The text without its leading whitespace. -/
def skipSpaces (u : CString) : CString := Cut.onward (fun c => !isSpace c) u

/-- The command text of a segment as it was typed, with the blanks after it. -/
def typedText (u : CString) : CString := Cut.before isMark (skipSpaces u)

/-- The text after the operator `c` of a segment as it was typed, with the blanks after it. -/
def typedRedirect (c : UInt8) (u : CString) : CString :=
  Cut.before isMark (skipSpaces (Cut.onward (· == c) u).tail)

/-- The command text of a segment, cut to the size of its buffer. -/
def commandText (u : CString) : CString := (Cut.before isMark (skipSpaces u)).take bufSize

/-- The text after the operator `c` of a segment, cut to the size of its buffer. -/
def redirectText (c : UInt8) (u : CString) : CString :=
  (Cut.before isMark (skipSpaces (Cut.onward (· == c) u).tail)).take bufSize

def segmentMask (u : CString) (next : Option Connector) : Connection :=
  if 38 ∈ u then .background
  else
    match next with
    | some .pipe => .pipe
    | some .seq => .sequential
    | none => .none

/-- A piece and the ones after it, each with the connector that follows it. -/
def attach : CString → List (Connector × CString) → List (CString × Option Connector)
  | u, [] => [(u, none)]
  | u, (k, v) :: rest => (u, some k) :: attach v rest

/-- The segments of a line; a blank line has none. -/
def segments (line : CString) : List (CString × Option Connector) :=
  if ∀ c ∈ line, classify c = .space then [] else attach (splitLine line).1 (splitLine line).2

/-- The `wordexp` calls made for the command of a segment. -/
def callCount (u : CString) : Nat :=
  1 + (if 60 ∈ u then 1 else 0) + (if 62 ∈ u then 1 else 0)

/-- The text of a segment's command that is handed to `wordexp`. -/
def expandedText (d : Dictionary) (u : CString) : CString :=
  (expandAlias d.toAliases (commandText u)).1

/-- The path of a redirection, when the operator `c` stands in the segment. -/
def segmentPath (f : CString → Option (List CString)) (c : UInt8) (u : CString) :
    Option CString :=
  if c ∈ u then singleWord (f (redirectText c u)) else none

/-- The command of a segment, for a `wordexp` that is a function of its text. -/
def segmentCommand (d : Dictionary) (f : CString → Option (List CString)) (addr : Nat)
    (seg : CString × Option Connector) : Command :=
  let words := (f (expandedText d seg.1)).getD []
  { addr := addr
    path := words.head?
    argv := some words
    redirectToPath := segmentPath f 62 seg.1
    redirectFromPath := segmentPath f 60 seg.1
    connectionMask := segmentMask seg.1 seg.2 }

/-! The texts of a complex, found in what it renders to. -/

namespace Complex

variable {g : Complex} {k : Kind} {p : Part} {c : UInt8} {s t u : CString}

theorem isMark_of_isText (h : isText c = true) : isMark c = false := by
  by_contra hm
  simp only [isMark, Bool.not_eq_false, Bool.or_eq_true, beq_iff_eq] at hm
  rcases hm with (rfl | rfl) | rfl <;> revert h <;> decide

theorem isText_of_isString (h : IsString s) : ∀ c ∈ s, isText c = true := by
  obtain ⟨c, t, rfl, hc, ht⟩ := h
  intro d hd
  rcases List.mem_cons.mp hd with rfl | hd
  · exact isText_of_word hc
  · exact ht d hd

/-- Nothing more, or an operator first. -/
def AtMark (s : CString) : Prop := Cut.before isMark s = []

theorem before_isMark (hs : ∀ c ∈ s, isText c = true) (ht : AtMark t) :
    Cut.before isMark (s ++ t) = s := by
  have hnone := Cut.before_append_of_none (t := t) fun c hc => isMark_of_isText (hs c hc)
  rw [hnone, ht, List.append_nil]

theorem skipSpaces_append (hs : ∀ c ∈ s, classify c = .space) (hu : IsString u) :
    skipSpaces (s ++ (u ++ t)) = u ++ t := by
  obtain ⟨c, v, rfl, hc, _⟩ := hu
  have hsep : (!isSpace c) = true := by simp [isSpace, hc]
  have hspace : ∀ a ∈ s, (!isSpace a) = false := by
    intro a ha
    simp [isSpace, hs a ha]
  have hskip := Cut.onward_append_of_none (t := c :: v ++ t) hspace
  rw [skipSpaces, hskip]
  exact Cut.onward_cons_of_separator hsep

/-- A part and what follows it: the text found after its gap is its own. -/
theorem text_found (hgap : ∀ c ∈ p.gap, classify c = .space) (htext : IsString p.text)
    (ht : AtMark t) : Cut.before isMark (skipSpaces (p.gap ++ (p.text ++ t))) = p.text := by
  rw [skipSpaces_append hgap htext]
  exact before_isMark (isText_of_isString htext) ht

theorem atMark_tail (g : Complex) : AtMark g.tail := by
  rw [tail]
  cases g.background with
  | none => rfl
  | some trail => exact Cut.before_cons_of_separator (by decide)

theorem atMark_parts {ps : List Part} (h : ∀ p ∈ ps, p.kind ≠ .command) (ht : AtMark t) :
    AtMark (ps.flatMap Part.render ++ t) := by
  cases ps with
  | nil => exact ht
  | cons p ps =>
    have hk := h p List.mem_cons_self
    obtain ⟨kind, gap, text⟩ := p
    cases kind with
    | command => exact absurd rfl hk
    | stdin => exact Cut.before_cons_of_separator (by decide)
    | stdout => exact Cut.before_cons_of_separator (by decide)

theorem isMark_operator (h : [c] = k.operator) : isMark c = true := by
  cases k with
  | command => cases h
  | stdin =>
    obtain rfl := List.singleton_inj.mp h
    decide
  | stdout =>
    obtain rfl := List.singleton_inj.mp h
    decide

/-- The byte of an operator is found in the parts of its kind only. -/
theorem mem_render_part (hc : [c] = k.operator) (hgap : ∀ c ∈ p.gap, classify c = .space)
    (htext : IsString p.text) : c ∈ p.render ↔ p.kind = k := by
  have hmark := isMark_operator hc
  have hnot : c ∉ p.gap ++ p.text := by
    intro hm
    have hisText : isText c = true := by
      rcases List.mem_append.mp hm with hm | hm
      · exact isText_of_space (hgap c hm)
      · exact isText_of_isString htext c hm
    rw [isMark_of_isText hisText] at hmark
    cases hmark
  rw [Part.render, List.mem_append, or_iff_left hnot]
  constructor
  · intro hm
    cases hk : p.kind <;> cases k <;> simp_all [Kind.operator]
  · rintro rfl
    rw [← hc]
    exact List.mem_singleton_self c

theorem mem_tail (hc : [c] = k.operator) (hw : g.WellFormed) : c ∉ g.tail := by
  rw [tail]
  cases hb : g.background with
  | none => simp
  | some trail =>
    intro hm
    rcases List.mem_cons.mp hm with rfl | hm
    · cases k <;> simp [Kind.operator] at hc
    · have hspace := isText_of_space ((hw.background trail hb).2 c hm)
      have hmark := isMark_operator hc
      rw [isMark_of_isText hspace] at hmark
      cases hmark

/-- An operator stands in a complex when it has a part of its kind. -/
theorem mem_render_iff (hc : [c] = k.operator) (hw : g.WellFormed) (hcomp : g.Complete) :
    c ∈ g.render ↔ k ∈ g.kinds := by
  rw [render, List.mem_append, or_iff_left (mem_tail hc hw), List.mem_flatMap, kinds,
    List.mem_map]
  constructor
  · rintro ⟨p, hp, hm⟩
    have hp' := List.mem_reverse.mp hp
    exact ⟨p, hp', (mem_render_part hc (hw.gap p hp') (hw.isString hcomp hp')).mp hm⟩
  · rintro ⟨p, hp, hk⟩
    exact ⟨p, List.mem_reverse.mpr hp,
      (mem_render_part hc (hw.gap p hp) (hw.isString hcomp hp)).mpr hk⟩

theorem mem_amp_iff (hw : g.WellFormed) (hcomp : g.Complete) :
    38 ∈ g.render ↔ g.background.isSome := by
  have hnot : 38 ∉ g.parts.reverse.flatMap Part.render := by
    rw [List.mem_flatMap]
    rintro ⟨p, hp, hm⟩
    have hp' := List.mem_reverse.mp hp
    rw [Part.render, List.mem_append, List.mem_append] at hm
    rcases hm with hm | hm | hm
    · cases hk : p.kind <;> simp [hk, Kind.operator] at hm
    · have hs := hw.gap p hp' 38 hm
      revert hs
      decide
    · have hs := isText_of_isString (hw.isString hcomp hp') 38 hm
      revert hs
      decide
  rw [render, List.mem_append, or_iff_right hnot, tail]
  cases g.background <;> simp

theorem orders_spec : ∀ ks ∈ orders,
    ks.Nodup ∧ Kind.command ∉ ks.dropLast ∧ ks.reverse.head? = some .command := by decide

/-- The parts before and after the one of a kind. -/
theorem exists_split (hw : g.WellFormed) (hk : k ∈ g.kinds) :
    ∃ pre p post, g.parts.reverse = pre ++ p :: post ∧ p.kind = k ∧ g.textOf k = p.text ∧
      (∀ q ∈ pre, q.kind ≠ k) ∧ ∀ q ∈ post, q.kind ≠ .command := by
  obtain ⟨hnodup, hcommand, _⟩ := orders_spec g.kinds hw.order
  obtain ⟨p, hp, hpk⟩ := List.mem_map.mp hk
  have hsome : (g.parts.find? fun p => p.kind = k).isSome := by
    rw [List.find?_isSome]
    exact ⟨p, hp, decide_eq_true hpk⟩
  obtain ⟨q, hq⟩ := Option.isSome_iff_exists.mp hsome
  obtain ⟨hqk, later, earlier, hparts, hlater⟩ := List.find?_eq_some_iff_append.mp hq
  have hqk' : q.kind = k := of_decide_eq_true hqk
  rw [kinds, hparts, List.map_append, List.map_cons, hqk'] at hnodup hcommand
  refine ⟨earlier.reverse, q, later.reverse, by simp [hparts], hqk', by simp [textOf, hq], ?_, ?_⟩
  · intro r hr hrk
    have hcons := (List.nodup_append.mp hnodup).2.1
    have hnot := (List.nodup_cons.mp hcons).1
    exact hnot (List.mem_map.mpr ⟨r, List.mem_reverse.mp hr, hrk⟩)
  · intro r hr hrk
    apply hcommand
    rw [List.dropLast_append_of_ne_nil (by simp)]
    exact List.mem_append_left _ (List.mem_map.mpr ⟨r, List.mem_reverse.mp hr, hrk⟩)

/-- The command text of a complex is what stands before its first operator. -/
theorem typedText_render (hw : g.WellFormed) (hcomp : g.Complete) :
    typedText g.render = g.textOf .command := by
  obtain ⟨pre, p, post, hparts, hk, htext, hnot, hpost⟩ := exists_split hw hw.command_mem
  have hpre : pre = [] := by
    have hhead := (orders_spec g.kinds hw.order).2.2
    rw [kinds, ← List.map_reverse, hparts] at hhead
    cases pre with
    | nil => rfl
    | cons q pre => exact absurd (Option.some.inj hhead) (hnot q List.mem_cons_self)
  have hp : p ∈ g.parts := List.mem_reverse.mp (by rw [hparts]; simp)
  have hrender : g.render = p.gap ++ (p.text ++ (post.flatMap Part.render ++ g.tail)) := by
    rw [render, hparts, hpre]
    simp [Part.render, hk, Kind.operator]
  rw [typedText, hrender, text_found (hw.gap p hp) (hw.isString hcomp hp)
    (atMark_parts hpost (atMark_tail g)), htext]

theorem commandText_render (hw : g.WellFormed) (hcomp : g.Complete) :
    commandText g.render = (g.textOf .command).take bufSize :=
  congrArg (·.take bufSize) (typedText_render hw hcomp)

/-- The command text of a complex starts with a letter of its name. -/
theorem typedText_cons (hu : u ∈ complexRule) :
    ∃ c t, typedText u = c :: t ∧ isBlank c = false := by
  obtain ⟨g, hw, hcomp, rfl⟩ := mem_complexRule.mp hu
  obtain ⟨c, t, ht, hc, _⟩ := hw.isString_textOf hcomp hw.command_mem
  refine ⟨c, t, (typedText_render hw hcomp).trans ht, ?_⟩
  by_contra hblank
  rw [Bool.not_eq_false, isBlank, beq_iff_eq] at hblank
  rw [hblank] at hc
  revert hc
  decide

/-- The text after an operator is that of the part of its kind. -/
theorem redirectText_render (hc : [c] = k.operator) (hw : g.WellFormed) (hcomp : g.Complete)
    (hk : k ∈ g.kinds) : redirectText c g.render = (g.textOf k).take bufSize := by
  obtain ⟨pre, p, post, hparts, hpk, htext, hpre, hpost⟩ := exists_split hw hk
  have hin : ∀ q ∈ pre ++ p :: post, q ∈ g.parts := fun q hq =>
    List.mem_reverse.mp (hparts ▸ hq)
  have hp := hin p (by simp)
  have hbefore : ∀ d ∈ pre.flatMap Part.render, (d == c) = false := by
    intro d hd
    obtain ⟨q, hq, hd⟩ := List.mem_flatMap.mp hd
    have hq' := hin q (List.mem_append_left _ hq)
    rw [beq_eq_false_iff_ne]
    rintro rfl
    exact hpre q hq ((mem_render_part hc (hw.gap q hq') (hw.isString hcomp hq')).mp hd)
  have hrender : g.render = pre.flatMap Part.render ++
      c :: (p.gap ++ (p.text ++ (post.flatMap Part.render ++ g.tail))) := by
    rw [render, hparts]
    simp [Part.render, hpk, ← hc]
  rw [redirectText, hrender, Cut.onward_append_of_none hbefore,
    Cut.onward_cons_of_separator (p := fun a => a == c) (beq_self_eq_true c), List.tail_cons,
    text_found (hw.gap p hp) (hw.isString hcomp hp) (atMark_parts hpost (atMark_tail g)), htext]

end Complex

end Redshell
