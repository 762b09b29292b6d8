import Redshell.CString

/-! The rule `complex` of parser.rl: the parts of one command, read byte by byte. -/
namespace Redshell

/-- The bytes as the rules of parser.rl tell them apart. -/
inductive ByteClass where
  | nul
  | space
  | seq
  | pipe
  | stdin
  | stdout
  | bg
  | word
  deriving DecidableEq

def classify (c : UInt8) : ByteClass :=
  if c = 0 then .nul
  else if c = 32 ∨ 9 ≤ c ∧ c ≤ 13 then .space
  else if c = 59 then .seq
  else if c = 124 then .pipe
  else if c = 60 then .stdin
  else if c = 62 then .stdout
  else if c = 38 then .bg
  else .word

def isSpace (c : UInt8) : Bool := classify c = .space

/-- The bytes of a `string` after its first one, and of the blanks after it. -/
def isText (c : UInt8) : Bool := classify c = .word ∨ classify c = .space

/-- `string`, with the blanks after it. -/
def IsString (s : CString) : Prop :=
  ∃ c t, s = c :: t ∧ classify c = .word ∧ ∀ b ∈ t, isText b = true

variable {c : UInt8}

/-- The classes of a single byte. -/
theorem classify_eq_iff (c : UInt8) :
    (classify c = .nul ↔ c = 0) ∧ (classify c = .seq ↔ c = 59) ∧ (classify c = .pipe ↔ c = 124) ∧
      (classify c = .stdin ↔ c = 60) ∧ (classify c = .stdout ↔ c = 62) ∧
      (classify c = .bg ↔ c = 38) := by
  by_cases hs : c = 32 ∨ 9 ≤ c ∧ c ≤ 13
  · have hne : c ≠ 0 ∧ c ≠ 59 ∧ c ≠ 124 ∧ c ≠ 60 ∧ c ≠ 62 ∧ c ≠ 38 := by
      refine ⟨?_, ?_, ?_, ?_, ?_, ?_⟩ <;> (rintro rfl; revert hs; decide)
    simp [classify, hs, hne]
  · unfold classify
    refine ⟨?_, ?_, ?_, ?_, ?_, ?_⟩ <;> constructor
    all_goals first
      | (intro h; split_ifs at h <;> simp_all)
      | (rintro rfl; decide)

theorem classify_eq_stdin_iff : classify c = .stdin ↔ c = 60 := (classify_eq_iff c).2.2.2.1

theorem classify_eq_stdout_iff : classify c = .stdout ↔ c = 62 := (classify_eq_iff c).2.2.2.2.1

theorem classify_eq_bg_iff : classify c = .bg ↔ c = 38 := (classify_eq_iff c).2.2.2.2.2

theorem isText_of_word (h : classify c = .word) : isText c = true := by simp [isText, h]

theorem isText_of_space (h : classify c = .space) : isText c = true := by simp [isText, h]

/-- The strings of a complex. -/
inductive Kind where
  | command
  | stdin
  | stdout
  deriving DecidableEq

/-- The operator before the string. -/
def Kind.operator : Kind → CString
  | command => []
  | stdin => [60]
  | stdout => [62]

structure Part where
  kind : Kind
  gap : CString
  text : CString

def Part.render (p : Part) : CString := p.kind.operator ++ (p.gap ++ p.text)

/-- A complex as far as it was read: `done` has the latest part first, `background` what
follows an `&`. -/
structure Complex where
  current : Part
  done : List Part
  background : Option CString

namespace Complex

def empty : Complex := ⟨⟨.command, [], []⟩, [], none⟩

def parts (g : Complex) : List Part := g.current :: g.done

def kinds (g : Complex) : List Kind := g.parts.map (·.kind)

def tail (g : Complex) : CString :=
  match g.background with
  | some trail => 38 :: trail
  | none => []

def render (g : Complex) : CString := g.parts.reverse.flatMap Part.render ++ g.tail

/-- The text of a part, empty when there is no such part. -/
def textOf (g : Complex) (k : Kind) : CString :=
  ((g.parts.find? fun p => p.kind = k).map (·.text)).getD []

def pushText (g : Complex) (c : UInt8) : Complex :=
  { g with current := { g.current with text := g.current.text ++ [c] } }

def pushGap (g : Complex) (c : UInt8) : Complex :=
  { g with current := { g.current with gap := g.current.gap ++ [c] } }

def redirect (g : Complex) (k : Kind) : Option Complex :=
  if g.current.text ≠ [] ∧ k ∉ g.kinds then
    some { g with current := ⟨k, [], []⟩, done := g.parts }
  else none

/-- The complex with one more byte, when the grammar allows it. -/
def push (g : Complex) (c : UInt8) : Option Complex :=
  match g.background with
  | some trail =>
    if classify c = .space then some { g with background := some (trail ++ [c]) } else none
  | none =>
    match classify c with
    | .word => some (g.pushText c)
    | .space => if g.current.text = [] then some (g.pushGap c) else some (g.pushText c)
    | .stdin => g.redirect .stdin
    | .stdout => g.redirect .stdout
    | .bg => if g.current.text = [] then none else some { g with background := some [] }
    | _ => none

/-- Reading on from a part of a complex. -/
def scan (g : Complex) : CString → Option Complex
  | [] => some g
  | c :: u =>
    match g.push c with
    | some g => g.scan u
    | none => none

/-- A complex may end here. -/
def Complete (g : Complex) : Prop := g.current.text ≠ []

instance : DecidablePred Complete := fun g => inferInstanceAs (Decidable (g.current.text ≠ []))

/-- The orders of the parts, the latest first. -/
def orders : List (List Kind) :=
  [[.command], [.stdin, .command], [.stdout, .command], [.stdout, .stdin, .command],
   [.stdin, .stdout, .command]]

/-- What holds of a complex while it is read. -/
structure WellFormed (g : Complex) : Prop where
  gap : ∀ p ∈ g.parts, ∀ c ∈ p.gap, classify c = .space
  text : ∀ p ∈ g.parts, p.text = [] ∨ IsString p.text
  done : ∀ p ∈ g.done, p.text ≠ []
  order : g.kinds ∈ orders
  background : ∀ trail, g.background = some trail →
    g.Complete ∧ ∀ c ∈ trail, classify c = .space

variable {g g' : Complex} {u v : CString} {k : Kind} {p : Part}

theorem wellFormed_empty : empty.WellFormed where
  gap := by simp [empty, parts]
  text := by simp [empty, parts]
  done := by simp [empty]
  order := by simp [empty, kinds, parts, orders]
  background := by simp [empty]

/-! One byte. -/

theorem render_cons (g : Complex) :
    g.render = g.done.reverse.flatMap Part.render ++ g.current.render ++ g.tail := by
  simp [render, parts]

/-- What a byte can do to a complex. -/
theorem push_cases (h : g.push c = some g') :
    (g.background = none ∧ isText c = true ∧ (g.Complete ∨ classify c = .word) ∧
        g' = g.pushText c) ∨
      (g.background = none ∧ classify c = .space ∧ ¬ g.Complete ∧ g' = g.pushGap c) ∨
      (∃ k, g.background = none ∧ [c] = k.operator ∧ g.Complete ∧ k ∉ g.kinds ∧
        g' = ⟨⟨k, [], []⟩, g.parts, none⟩) ∨
      (g.background = none ∧ c = 38 ∧ g.Complete ∧ g' = { g with background := some [] }) ∨
      (∃ trail, g.background = some trail ∧ classify c = .space ∧
        g' = { g with background := some (trail ++ [c]) }) := by
  unfold push at h
  cases hb : g.background with
  | some trail =>
    simp only [hb] at h
    split at h
    · rename_i hs
      cases h
      exact Or.inr (Or.inr (Or.inr (Or.inr ⟨trail, rfl, hs, rfl⟩)))
    · cases h
  | none =>
    simp only [hb] at h
    cases hc : classify c <;> simp only [hc] at h
    case word =>
      cases h
      exact Or.inl ⟨rfl, isText_of_word hc, Or.inr rfl, rfl⟩
    case space =>
      split at h
      · rename_i ht
        cases h
        exact Or.inr (Or.inl ⟨rfl, rfl, not_not.mpr ht, rfl⟩)
      · rename_i ht
        cases h
        exact Or.inl ⟨rfl, isText_of_space hc, Or.inl ht, rfl⟩
    case stdin =>
      unfold redirect at h
      split at h
      · rename_i hk
        cases h
        rw [classify_eq_stdin_iff] at hc
        exact Or.inr (Or.inr (Or.inl ⟨.stdin, rfl, by simp [hc, Kind.operator], hk.1, hk.2,
          by rw [hb]⟩))
      · cases h
    case stdout =>
      unfold redirect at h
      split at h
      · rename_i hk
        cases h
        rw [classify_eq_stdout_iff] at hc
        exact Or.inr (Or.inr (Or.inl ⟨.stdout, rfl, by simp [hc, Kind.operator], hk.1, hk.2,
          by rw [hb]⟩))
      · cases h
    case bg =>
      split at h
      · cases h
      · rename_i ht
        cases h
        rw [classify_eq_bg_iff] at hc
        exact Or.inr (Or.inr (Or.inr (Or.inl ⟨rfl, hc, ht, rfl⟩)))
    all_goals cases h

/-- A byte read is rendered where it stood. -/
theorem push_render (h : g.push c = some g') : g'.render = g.render ++ [c] := by
  rcases push_cases h with ⟨hb, _, _, rfl⟩ | ⟨hb, _, hc, rfl⟩ | ⟨k, hb, hk, _, _, rfl⟩ |
    ⟨hb, rfl, _, rfl⟩ | ⟨trail, hb, _, rfl⟩
  · simp [render_cons, Part.render, pushText, tail, hb]
  · have ht : g.current.text = [] := not_not.mp hc
    simp [render_cons, Part.render, pushGap, tail, hb, ht]
  · simp [render_cons, Part.render, parts, tail, hb, hk]
  · simp [render_cons, Part.render, tail, hb]
  · simp [render_cons, Part.render, tail, hb]

theorem isString_concat (h : u = [] ∨ IsString u) (hc : isText c = true)
    (hw : u ≠ [] ∨ classify c = .word) : IsString (u ++ [c]) := by
  rcases h with rfl | ⟨d, t, rfl, hd, ht⟩
  · rcases hw with hw | hw
    · exact absurd rfl hw
    · exact ⟨c, [], rfl, hw, by simp⟩
  · refine ⟨d, t ++ [c], rfl, hd, fun b hb => ?_⟩
    rcases List.mem_append.mp hb with hb | hb
    · exact ht b hb
    · obtain rfl := List.mem_singleton.mp hb
      exact hc

theorem push_wellFormed (hw : g.WellFormed) (h : g.push c = some g') : g'.WellFormed := by
  obtain ⟨hgap, htext, hdone, horder, hbg⟩ := hw
  have hcur : g.current ∈ g.parts := List.mem_cons_self
  rcases push_cases h with ⟨hb, hc, hcw, rfl⟩ | ⟨hb, hc, hnc, rfl⟩ | ⟨k, hb, hk, hcomp, hnk, rfl⟩ |
    ⟨hb, rfl, hcomp, rfl⟩ | ⟨trail, hb, hc, rfl⟩
  · refine ⟨fun p hp => ?_, fun p hp => ?_, hdone, horder, fun trail ht => ?_⟩
    · rcases List.mem_cons.mp hp with rfl | hp
      · exact hgap g.current hcur
      · exact hgap p (List.mem_cons_of_mem _ hp)
    · rcases List.mem_cons.mp hp with rfl | hp
      · exact Or.inr (isString_concat (htext _ hcur) hc hcw)
      · exact htext p (List.mem_cons_of_mem _ hp)
    · cases hb.symm.trans ht
  · refine ⟨fun p hp => ?_, fun p hp => ?_, hdone, horder, fun trail ht => ?_⟩
    · rcases List.mem_cons.mp hp with rfl | hp
      · intro d hd
        rcases List.mem_append.mp hd with hd | hd
        · exact hgap _ hcur d hd
        · rwa [List.mem_singleton.mp hd]
      · exact hgap p (List.mem_cons_of_mem _ hp)
    · rcases List.mem_cons.mp hp with rfl | hp
      · exact htext g.current hcur
      · exact htext p (List.mem_cons_of_mem _ hp)
    · cases hb.symm.trans ht
  · refine ⟨fun p hp => ?_, fun p hp => ?_, fun p hp => ?_, ?_, fun trail ht => by cases ht⟩
    · rcases List.mem_cons.mp hp with rfl | hp
      · simp
      · exact hgap p hp
    · rcases List.mem_cons.mp hp with rfl | hp
      · exact Or.inl rfl
      · exact htext p hp
    · rcases List.mem_cons.mp hp with rfl | hp
      · exact hcomp
      · exact hdone p hp
    · have hks : (⟨⟨k, [], []⟩, g.parts, none⟩ : Complex).kinds = k :: g.kinds := rfl
      rw [hks]
      simp only [orders, List.mem_cons, List.not_mem_nil, or_false] at horder
      rcases horder with ho | ho | ho | ho | ho <;> rw [ho] at hnk ⊢ <;>
        cases k <;> simp_all [Kind.operator, orders]
  · exact ⟨hgap, htext, hdone, horder, fun trail ht => by cases ht; exact ⟨hcomp, by simp⟩⟩
  · refine ⟨hgap, htext, hdone, horder, fun t ht => ?_⟩
    cases ht
    obtain ⟨hcomp, hall⟩ := hbg trail hb
    refine ⟨hcomp, fun d hd => ?_⟩
    rcases List.mem_append.mp hd with hd | hd
    · exact hall d hd
    · rwa [List.mem_singleton.mp hd]

/-! A whole piece of text. -/

theorem scan_append (g : Complex) (u v : CString) :
    g.scan (u ++ v) = (g.scan u).bind fun g => g.scan v := by
  induction u generalizing g with
  | nil => rfl
  | cons c u ih =>
    simp only [List.cons_append, scan]
    cases g.push c with
    | none => rfl
    | some g => exact ih g

theorem scan_render (hw : g.WellFormed) (h : g.scan u = some g') :
    g'.render = g.render ++ u ∧ g'.WellFormed := by
  induction u generalizing g with
  | nil =>
    cases h
    exact ⟨by simp, hw⟩
  | cons c u ih =>
    rw [scan] at h
    cases hp : g.push c with
    | none => simp [hp] at h
    | some g₁ =>
      simp only [hp] at h
      obtain ⟨hr, hw'⟩ := ih (push_wellFormed hw hp) h
      rw [hr, push_render hp]
      exact ⟨by simp, hw'⟩

theorem scan_gap (hb : g.background = none) (ht : g.current.text = [])
    (hu : ∀ c ∈ u, classify c = .space) :
    g.scan u = some { g with current := { g.current with gap := g.current.gap ++ u } } := by
  induction u generalizing g with
  | nil => simp [scan]
  | cons c u ih =>
    have hpush : g.push c = some (g.pushGap c) := by simp [push, hb, hu c (by simp), ht]
    have hread := ih (g := g.pushGap c) hb ht fun d hd => hu d (by simp [hd])
    simpa [scan, hpush, pushGap] using hread

theorem scan_text (hb : g.background = none) (ht : g.Complete)
    (hu : ∀ c ∈ u, isText c = true) :
    g.scan u = some { g with current := { g.current with text := g.current.text ++ u } } := by
  induction u generalizing g with
  | nil => simp [scan]
  | cons c u ih =>
    have hne : g.current.text ≠ [] := ht
    have hpush : g.push c = some (g.pushText c) := by
      have hc := hu c (by simp)
      simp only [isText, decide_eq_true_eq] at hc
      rcases hc with hc | hc <;> simp [push, hb, hc, hne]
    have hread := ih (g := g.pushText c) hb (by simp [Complete, pushText])
      fun d hd => hu d (by simp [hd])
    simpa [scan, hpush, pushText] using hread

theorem scan_string (hb : g.background = none) (ht : g.current.text = []) (hu : IsString u) :
    g.scan u = some { g with current := { g.current with text := u } } := by
  obtain ⟨c, t, rfl, hc, htext⟩ := hu
  have hpush : g.push c = some (g.pushText c) := by simp [push, hb, hc]
  have hread := scan_text (g := g.pushText c) hb (by simp [Complete, pushText]) htext
  simpa [scan, hpush, pushText, ht] using hread

theorem scan_trail {trail : CString} (hb : g.background = some trail)
    (hu : ∀ c ∈ u, classify c = .space) :
    g.scan u = some { g with background := some (trail ++ u) } := by
  induction u generalizing g trail with
  | nil => simp [scan, ← hb]
  | cons c u ih =>
    have hpush : g.push c = some { g with background := some (trail ++ [c]) } := by
      simp [push, hb, hu c (by simp)]
    have hread := ih (g := { g with background := some (trail ++ [c]) }) rfl
      fun d hd => hu d (by simp [hd])
    simpa [scan, hpush] using hread

/-- A redirection is read from its operator to the blanks after its string. -/
theorem scan_redirection (hb : g.background = none) (hcomp : g.Complete) (hk : k ∉ g.kinds)
    (hop : k ≠ .command) (hgap : ∀ c ∈ u, classify c = .space) (htext : IsString v) :
    g.scan ((⟨k, u, v⟩ : Part).render) = some ⟨⟨k, u, v⟩, g.parts, none⟩ := by
  have hpush : ∀ c, [c] = k.operator →
      g.push c = some ⟨⟨k, [], []⟩, g.parts, none⟩ := by
    intro c hc
    have hne : g.current.text ≠ [] := hcomp
    cases k with
    | command => exact absurd rfl hop
    | stdin =>
      have hcl : classify c = .stdin := classify_eq_stdin_iff.mpr (List.singleton_inj.mp hc)
      simp [push, hb, hcl, redirect, hne, hk]
    | stdout =>
      have hcl : classify c = .stdout := classify_eq_stdout_iff.mpr (List.singleton_inj.mp hc)
      simp [push, hb, hcl, redirect, hne, hk]
  obtain ⟨c, hc⟩ : ∃ c, [c] = k.operator := by
    cases k with
    | command => exact absurd rfl hop
    | stdin => exact ⟨60, rfl⟩
    | stdout => exact ⟨62, rfl⟩
  rw [Part.render, ← hc, List.singleton_append, scan, hpush c hc]
  simp only
  rw [scan_append, scan_gap rfl rfl hgap, Option.bind_some, scan_string rfl rfl htext]
  simp

theorem orders_cons {k' : Kind} {ks : List Kind} (h : k :: k' :: ks ∈ orders) :
    k' :: ks ∈ orders ∧ k ≠ .command ∧ k ∉ k' :: ks := by
  simp only [orders, List.mem_cons, List.cons.injEq, List.not_mem_nil, or_false] at h
  rcases h with ⟨_, h⟩ | ⟨rfl, rfl, rfl⟩ | ⟨rfl, rfl, rfl⟩ | ⟨rfl, rfl, rfl⟩ | ⟨rfl, rfl, rfl⟩
  · cases h
  all_goals decide

theorem scan_parts {ps : List Part} (hk : (p :: ps).map (·.kind) ∈ orders)
    (hps : ∀ q ∈ p :: ps, (∀ c ∈ q.gap, classify c = .space) ∧ IsString q.text) :
    empty.scan ((p :: ps).reverse.flatMap Part.render) = some ⟨p, ps, none⟩ := by
  induction ps generalizing p with
  | nil =>
    obtain ⟨kind, gap, text⟩ := p
    obtain ⟨hgap, htext⟩ := hps _ (List.mem_singleton_self _)
    have hcommand : kind = .command := by cases kind <;> simp_all [orders]
    subst hcommand
    simp only [List.reverse_singleton, List.flatMap_singleton, Part.render, Kind.operator,
      List.nil_append]
    rw [scan_append, scan_gap rfl rfl hgap, Option.bind_some, scan_string rfl rfl htext]
    rfl
  | cons q ps ih =>
    obtain ⟨hgap, htext⟩ := hps p List.mem_cons_self
    obtain ⟨horder, hne, hnew⟩ := orders_cons hk
    have hread := ih (p := q) horder fun r hr => hps r (List.mem_cons_of_mem _ hr)
    obtain ⟨c, t, hct, _⟩ := (hps q (by simp)).2
    have hcomp : (⟨q, ps, none⟩ : Complex).Complete := by simp [Complete, hct]
    rw [List.reverse_cons, List.flatMap_append, List.flatMap_singleton, scan_append, hread,
      Option.bind_some]
    exact scan_redirection rfl hcomp hnew hne hgap htext

theorem WellFormed.isString (hw : g.WellFormed) (hc : g.Complete) (hp : p ∈ g.parts) :
    IsString p.text := by
  rcases hw.text p hp with ht | ht
  · rcases List.mem_cons.mp hp with rfl | hp
    · exact absurd ht hc
    · exact absurd ht (hw.done p hp)
  · exact ht

/-- Every complete complex is read back from what it renders to. -/
theorem scan_render_self (hw : g.WellFormed) (hc : g.Complete) :
    empty.scan g.render = some g := by
  have hread := scan_parts hw.order fun q hq => ⟨hw.gap q hq, hw.isString hc hq⟩
  have hbg := hw.background
  obtain ⟨current, done, background⟩ := g
  rw [render, parts, scan_append, hread, Option.bind_some]
  cases background with
  | none => rfl
  | some trail =>
    have hne : current.text ≠ [] := hc
    have hpush : (⟨current, done, none⟩ : Complex).push 38 = some ⟨current, done, some []⟩ := by
      simp [push, classify_eq_bg_iff.mpr, hne]
    have htrail := scan_trail (g := ⟨current, done, some []⟩) rfl (hbg trail rfl).2
    simpa only [tail, scan, hpush, List.nil_append] using htrail

/-! The texts of the parts. -/

theorem textOf_current (g : Complex) : g.textOf g.current.kind = g.current.text := by
  simp [textOf, parts]

theorem textOf_of_ne (h : k ≠ g.current.kind) :
    g.textOf k = ((g.done.find? fun p => p.kind = k).map (·.text)).getD [] := by
  simp [textOf, parts, h.symm]

theorem textOf_pushText (g : Complex) (c : UInt8) (k : Kind) :
    (g.pushText c).textOf k = if k = g.current.kind then g.textOf k ++ [c] else g.textOf k := by
  split
  · rename_i hk
    subst hk
    rw [textOf_current]
    exact textOf_current (g.pushText c)
  · rename_i hk
    rw [textOf_of_ne hk]
    exact textOf_of_ne (g := g.pushText c) hk

theorem textOf_pushGap (g : Complex) (c : UInt8) (k : Kind) :
    (g.pushGap c).textOf k = g.textOf k := by
  by_cases hk : k = g.current.kind
  · subst hk
    rw [textOf_current]
    exact textOf_current (g.pushGap c)
  · rw [textOf_of_ne hk]
    exact textOf_of_ne (g := g.pushGap c) hk

theorem textOf_of_not_mem (h : k ∉ g.kinds) : g.textOf k = [] := by
  have hnone : g.parts.find? (fun p => p.kind = k) = none := by
    rw [List.find?_eq_none]
    intro p hp hpk
    exact h (List.mem_map.mpr ⟨p, hp, of_decide_eq_true hpk⟩)
  rw [textOf, hnone]
  rfl

theorem textOf_redirect (k' : Kind) (h : k ∉ g.kinds) :
    (⟨⟨k, [], []⟩, g.parts, none⟩ : Complex).textOf k' = g.textOf k' := by
  by_cases hk : k' = k
  · subst hk
    rw [textOf_of_not_mem h]
    exact textOf_current ⟨⟨k', [], []⟩, g.parts, none⟩
  · exact textOf_of_ne (g := ⟨⟨k, [], []⟩, g.parts, none⟩) hk

theorem WellFormed.command_mem (hw : g.WellFormed) : Kind.command ∈ g.kinds := by
  have hall : ∀ ks ∈ orders, Kind.command ∈ ks := by decide
  exact hall _ hw.order

theorem WellFormed.isString_textOf (hw : g.WellFormed) (hc : g.Complete) (hk : k ∈ g.kinds) :
    IsString (g.textOf k) := by
  obtain ⟨p, hp, hpk⟩ := List.mem_map.mp hk
  have hsome : (g.parts.find? fun p => p.kind = k).isSome := by
    rw [List.find?_isSome]
    exact ⟨p, hp, decide_eq_true hpk⟩
  obtain ⟨q, hq⟩ := Option.isSome_iff_exists.mp hsome
  rw [textOf, hq]
  exact hw.isString hc (List.mem_of_find?_eq_some hq)

/-- A `string` alone is a complex. -/
theorem exists_of_isString (h : IsString u) : ∃ g : Complex, empty.scan u = some g ∧
    g.WellFormed ∧ g.Complete ∧ g.render = u ∧ g.textOf .command = u ∧ g.background = none := by
  have hscan := scan_string (g := empty) rfl rfl h
  obtain ⟨hrender, hw⟩ := scan_render wellFormed_empty hscan
  refine ⟨_, hscan, hw, ?_, hrender, rfl, rfl⟩
  obtain ⟨c, t, rfl, _⟩ := h
  exact List.cons_ne_nil c t

end Complex

end Redshell
