import Redshell.Language
import Redshell.Line

/-! The grammar of parser.rl, and the lines that the machine accepts. -/
namespace Redshell

open Computability

/-! The rules of parser.rl as languages. -/

/-- `space*` -/
def spaces : Language UInt8 := (Lang.char fun c => classify c = .space)∗

/-- `string`, with `word` as one or more of its bytes. -/
def stringRule : Language UInt8 :=
  Lang.spaced (fun c => classify c = .word) fun c => classify c = .space

def byteRule (c : UInt8) : Language UInt8 := {[c]}

def stdinRule : Language UInt8 := byteRule 60 * spaces * stringRule

def stdoutRule : Language UInt8 := byteRule 62 * spaces * stringRule

def redirAlpha : Language UInt8 := stdinRule * spaces * Lang.opt stdoutRule

def redirBeta : Language UInt8 := stdoutRule * spaces * Lang.opt stdinRule

def complexRule : Language UInt8 :=
  spaces * stringRule * spaces * Lang.opt (redirAlpha + redirBeta) * spaces *
    Lang.opt (byteRule 38) * spaces

/-- `main`, without the NUL at its end. -/
def mainRule : Language UInt8 :=
  spaces + complexRule * ((byteRule 59 + byteRule 124) * complexRule)∗

/-! The rule `complex` and the complexes that are read. -/

def Kind.rule : Kind → Language UInt8
  | command => 1
  | stdin => byteRule 60
  | stdout => byteRule 62

def Part.rule (k : Kind) : Language UInt8 := k.rule * spaces * (stringRule * spaces)

/-- The parts in one of their orders, and perhaps an `&`. -/
theorem complexRule_eq :
    complexRule =
      (Complex.orders.map fun ks => (ks.reverse.map Part.rule).prod).sum *
        Lang.opt (byteRule 38 * spaces) := by
  have hss : spaces * spaces = spaces := kstar_mul_kstar _
  simp only [complexRule, redirAlpha, redirBeta, stdinRule, stdoutRule, Lang.opt, Complex.orders,
    Part.rule, Kind.rule, List.map_cons, List.map_nil, List.sum_cons, List.sum_nil,
    List.reverse_cons, List.reverse_nil, List.nil_append, List.cons_append, List.prod_cons,
    List.prod_nil, mul_add, add_mul, mul_one, one_mul, mul_assoc, hss, add_zero]
  abel

theorem mem_spaces {s : CString} : s ∈ spaces ↔ ∀ c ∈ s, classify c = .space :=
  Lang.mem_kstar_char

theorem mem_string {s : CString} : s ∈ stringRule * spaces ↔ IsString s := by
  rw [stringRule, spaces, Lang.mem_spaced_mul]
  simp only [IsString, isText, decide_eq_true_eq]

theorem Part.mem_rule {k : Kind} {s : CString} :
    s ∈ Part.rule k ↔ ∃ p : Part, p.kind = k ∧ (∀ c ∈ p.gap, classify c = .space) ∧
      IsString p.text ∧ p.render = s := by
  have hop : k.rule = {k.operator} := by cases k <;> rfl
  rw [Part.rule, hop, mul_assoc, Language.mem_mul]
  constructor
  · rintro ⟨_, rfl, t, ht, rfl⟩
    obtain ⟨gap, hgap, text, htext, rfl⟩ := Language.mem_mul.mp ht
    exact ⟨⟨k, gap, text⟩, rfl, mem_spaces.mp hgap, mem_string.mp htext, rfl⟩
  · rintro ⟨⟨k, gap, text⟩, rfl, hgap, htext, rfl⟩
    exact ⟨_, rfl, gap ++ text,
      Language.append_mem_mul (mem_spaces.mpr hgap) (mem_string.mpr htext), rfl⟩

theorem mem_parts {ks : List Kind} {s : CString} :
    s ∈ (ks.map Part.rule).prod ↔ ∃ ps : List Part, ps.map (·.kind) = ks ∧
      (∀ p ∈ ps, (∀ c ∈ p.gap, classify c = .space) ∧ IsString p.text) ∧
      ps.flatMap Part.render = s := by
  induction ks generalizing s with
  | nil =>
    simp only [List.map_nil, List.prod_nil, Language.mem_one, List.map_eq_nil_iff]
    constructor
    · rintro rfl
      exact ⟨[], rfl, by simp, rfl⟩
    · rintro ⟨_, rfl, _, rfl⟩
      rfl
  | cons k ks ih =>
    rw [List.map_cons, List.prod_cons, Language.mem_mul]
    constructor
    · rintro ⟨a, ha, b, hb, rfl⟩
      obtain ⟨p, rfl, hgap, htext, rfl⟩ := Part.mem_rule.mp ha
      obtain ⟨ps, rfl, hps, rfl⟩ := ih.mp hb
      refine ⟨p :: ps, rfl, fun q hq => ?_, rfl⟩
      rcases List.mem_cons.mp hq with rfl | hq
      · exact ⟨hgap, htext⟩
      · exact hps q hq
    · rintro ⟨ps, hks, hps, rfl⟩
      obtain ⟨p, ps, rfl, rfl, rfl⟩ := List.map_eq_cons_iff.mp hks
      obtain ⟨hgap, htext⟩ := hps p List.mem_cons_self
      exact ⟨_, Part.mem_rule.mpr ⟨p, rfl, hgap, htext, rfl⟩, _,
        ih.mpr ⟨ps, rfl, fun q hq => hps q (List.mem_cons_of_mem _ hq), rfl⟩, rfl⟩

/-- The rule describes exactly what complete complexes render to. -/
theorem mem_complexRule {s : CString} :
    s ∈ complexRule ↔ ∃ g : Complex, g.WellFormed ∧ g.Complete ∧ g.render = s := by
  rw [complexRule_eq, Language.mem_mul]
  constructor
  · rintro ⟨a, ha, b, hb, rfl⟩
    obtain ⟨_, hl, ha⟩ := Lang.mem_sum.mp ha
    obtain ⟨ks, hks, rfl⟩ := List.mem_map.mp hl
    obtain ⟨ps, hkinds, hps, rfl⟩ := mem_parts.mp ha
    obtain ⟨q, qs, hq⟩ : ∃ q qs, ps.reverse = q :: qs := by
      apply List.exists_cons_of_ne_nil
      rintro hnil
      rw [List.reverse_eq_nil_iff.mp hnil] at hkinds
      rw [List.reverse_eq_nil_iff.mp hkinds.symm] at hks
      exact absurd hks (by decide)
    have hrev : ps = (q :: qs).reverse := by rw [← hq, List.reverse_reverse]
    subst hrev
    have hmem : ∀ p ∈ q :: qs, (∀ c ∈ p.gap, classify c = .space) ∧ IsString p.text :=
      fun p hp => hps p (List.mem_reverse.mpr hp)
    have horder : (q :: qs).map (·.kind) = ks := by
      rw [List.map_reverse] at hkinds
      exact List.reverse_injective hkinds
    have hne : ∀ p ∈ q :: qs, p.text ≠ [] := by
      intro p hp
      obtain ⟨c, t, ht, _⟩ := (hmem p hp).2
      simp [ht]
    have hcomp := hne q List.mem_cons_self
    rw [← horder] at hks
    rcases Lang.mem_opt.mp hb with rfl | hb
    · exact ⟨⟨q, qs, none⟩, ⟨fun p hp => (hmem p hp).1, fun p hp => Or.inr (hmem p hp).2,
        fun p hp => hne p (List.mem_cons_of_mem _ hp), hks, by simp⟩, hcomp,
        by simp [Complex.render, Complex.parts, Complex.tail]⟩
    · obtain ⟨_, rfl, trail, htrail, rfl⟩ := Language.mem_mul.mp hb
      refine ⟨⟨q, qs, some trail⟩, ⟨fun p hp => (hmem p hp).1, fun p hp => Or.inr (hmem p hp).2,
        fun p hp => hne p (List.mem_cons_of_mem _ hp), hks, fun t ht => ?_⟩, hcomp,
        by simp [Complex.render, Complex.parts, Complex.tail]⟩
      cases ht
      exact ⟨hcomp, mem_spaces.mp htrail⟩
  · rintro ⟨g, hw, hcomp, rfl⟩
    refine ⟨g.parts.reverse.flatMap Part.render, Lang.mem_sum.mpr ⟨_,
      List.mem_map.mpr ⟨g.kinds, hw.order, rfl⟩, mem_parts.mpr ⟨g.parts.reverse, ?_, ?_, rfl⟩⟩,
      g.tail, ?_, rfl⟩
    · rw [Complex.kinds, List.map_reverse]
    · intro p hp
      have hp' := List.mem_reverse.mp hp
      exact ⟨hw.gap p hp', hw.isString hcomp hp'⟩
    · rw [Lang.mem_opt, Complex.tail]
      cases hb : g.background with
      | none => exact Or.inl rfl
      | some trail =>
        exact Or.inr (Language.append_mem_mul (a := [38]) rfl
          (mem_spaces.mpr (hw.background trail hb).2))

/-- The automaton of the complexes decides the rule. -/
theorem mem_complexRule_iff_scan {s : CString} :
    s ∈ complexRule ↔ ∃ g, Complex.empty.scan s = some g ∧ g.Complete := by
  rw [mem_complexRule]
  constructor
  · rintro ⟨g, hw, hcomp, rfl⟩
    exact ⟨g, Complex.scan_render_self hw hcomp, hcomp⟩
  · rintro ⟨g, hg, hcomp⟩
    obtain ⟨hr, hw⟩ := Complex.scan_render Complex.wellFormed_empty hg
    exact ⟨g, hw, hcomp, hr⟩

/-! The rule `main` and the pieces of a line. -/

theorem scan_plain {g g' : Complex} {u : CString} (h : g.scan u = some g') :
    ∀ c ∈ u, findConnector c = none := by
  induction u generalizing g with
  | nil => simp
  | cons c u ih =>
    rw [Complex.scan] at h
    cases hp : g.push c with
    | none => simp [hp] at h
    | some g₁ =>
      simp only [hp] at h
      intro d hd
      rcases List.mem_cons.mp hd with rfl | hd
      · rw [findConnector_eq_none_iff]
        constructor <;> intro hc <;> simp [Complex.push, hc] at hp <;> split at hp <;> cases hp
      · exact ih h d hd

theorem complexRule_plain {u : CString} (h : u ∈ complexRule) :
    ∀ c ∈ u, findConnector c = none := by
  obtain ⟨g, hg, _⟩ := mem_complexRule_iff_scan.mp h
  exact scan_plain hg

theorem splitLine_join {u : CString} (rest : List (Connector × CString))
    (hu : ∀ c ∈ u, findConnector c = none)
    (hrest : ∀ p ∈ rest, ∀ c ∈ p.2, findConnector c = none) :
    splitLine (u ++ joinRest rest) = (u, rest) := by
  induction u with
  | nil =>
    induction rest with
    | nil => rfl
    | cons p rest ih =>
      obtain ⟨k, v⟩ := p
      have hv := hrest (k, v) List.mem_cons_self
      have hrest' := ih fun p hp => hrest p (List.mem_cons_of_mem _ hp)
      have htail : splitLine (v ++ joinRest rest) = (v, rest) := by
        clear ih hrest
        induction v with
        | nil => exact hrest'
        | cons c v ihv =>
          have hc := hv c List.mem_cons_self
          have hsub := ihv fun d hd => hv d (List.mem_cons_of_mem _ hd)
          simp [splitLine, hc, hsub]
      have hk : findConnector k.byte = some k := findConnector_eq_some_iff.mpr rfl
      simp [joinRest, splitLine, hk]
      rw [← joinRest, htail]
      exact ⟨rfl, rfl⟩
  | cons c u ih =>
    have hc := hu c List.mem_cons_self
    have hsub := ih fun d hd => hu d (List.mem_cons_of_mem _ hd)
    simp [splitLine, hc, hsub]

theorem mem_rest {s : CString} :
    s ∈ ((byteRule 59 + byteRule 124) * complexRule)∗ ↔
      ∃ rest, s = joinRest rest ∧ ∀ p ∈ rest, p.2 ∈ complexRule := by
  constructor
  · intro h
    obtain ⟨words, rfl, hw⟩ := Language.mem_kstar.mp h
    clear h
    induction words with
    | nil => exact ⟨[], rfl, by simp⟩
    | cons w words ih =>
      obtain ⟨rest, hrest, hall⟩ := ih fun v hv => hw v (List.mem_cons_of_mem _ hv)
      obtain ⟨a, ha, u, hu, rfl⟩ := Language.mem_mul.mp (hw w List.mem_cons_self)
      obtain ⟨k, rfl⟩ : ∃ k : Connector, a = [k.byte] := by
        rcases (Language.mem_add _ _ _).mp ha with rfl | rfl
        · exact ⟨.seq, rfl⟩
        · exact ⟨.pipe, rfl⟩
      refine ⟨(k, u) :: rest, by simp [joinRest, hrest], fun p hp => ?_⟩
      rcases List.mem_cons.mp hp with rfl | hp
      · exact hu
      · exact hall p hp
  · rintro ⟨rest, rfl, hall⟩
    induction rest with
    | nil => exact Lang.nil_mem_kstar
    | cons p rest ih =>
      have hk : [p.1.byte] ∈ byteRule 59 + byteRule 124 := by
        rw [Language.mem_add]
        cases p.1
        · exact Or.inl rfl
        · exact Or.inr rfl
      have hp := Language.append_mem_mul hk (hall p List.mem_cons_self)
      exact Lang.append_mem_kstar hp (ih fun q hq => hall q (List.mem_cons_of_mem _ hq))

/-- A line of the grammar is blank, or its pieces are all complexes. -/
theorem mem_mainRule {s : CString} :
    s ∈ mainRule ↔ (∀ c ∈ s, classify c = .space) ∨
      (splitLine s).1 ∈ complexRule ∧ ∀ p ∈ (splitLine s).2, p.2 ∈ complexRule := by
  rw [mainRule, Language.mem_add, mem_spaces, Language.mem_mul]
  refine or_congr Iff.rfl ⟨?_, fun ⟨hu, hrest⟩ => ?_⟩
  · rintro ⟨u, hu, v, hv, rfl⟩
    obtain ⟨rest, rfl, hall⟩ := mem_rest.mp hv
    rw [splitLine_join _ (complexRule_plain hu) fun p hp => complexRule_plain (hall p hp)]
    exact ⟨hu, hall⟩
  · exact ⟨_, hu, _, mem_rest.mpr ⟨_, rfl, hrest⟩, joinRest_splitLine s⟩

/-! What the runs accept. -/

/-- An expansion of a command failed. -/
def Session.Failed (ss : Session) : Prop :=
  ∃ call ∈ ss.calls, call.glob = true ∧ call.result = none

variable {wordexp : Wordexp} {ss ss' : Session} {g : Complex} {c : UInt8} {u : CString}
  {queue : Queue} {pending : Option Pending} {first : Bool} {addr : Nat} {mask : Connection}

theorem finish_failed (h : g.finish wordexp addr mask ss = (none, ss')) : ss'.Failed := by
  dsimp only [Complex.finish] at h
  split at h
  · rename_i hglob
    cases h
    simp only [expandGlob, callWordexp, Prod.mk.injEq] at hglob
    obtain ⟨hnone, rfl⟩ := hglob
    exact ⟨_, List.mem_cons_self, rfl, hnone⟩
  · cases h

theorem flush_failed (h : flush wordexp pending ss = (none, ss')) : ss'.Failed := by
  cases pending with
  | none => cases h
  | some p =>
    rw [flush] at h
    cases hf : p.complex.finish wordexp p.addr p.mask ss with
    | mk done ss₁ =>
      cases done with
      | none =>
        rw [hf] at h
        cases h
        exact finish_failed hf
      | some command =>
        rw [hf] at h
        cases h

/-- A piece is read to its end, is no part of a complex, or meets a failed expansion. -/
theorem readPiece_cases (wordexp : Wordexp) (pending : Option Pending) (c : UInt8)
    (u : CString) (queue : Queue) (ss : Session)
    (next : Complex → Nat → Queue → Session → Verdict) :
    (∃ q ss', readPiece wordexp pending c u queue ss next = .aborted q ss' ∧ ss'.Failed) ∨
      (∃ ss', readPiece wordexp pending c u queue ss next = .rejected ss' ∧
        Complex.empty.scan (c :: u) = none) ∨
      ∃ g addr q ss', Complex.empty.scan (c :: u) = some g ∧
        readPiece wordexp pending c u queue ss next = next g addr q ss' := by
  rw [readPiece, Complex.scan]
  cases hp : Complex.empty.push c with
  | none => exact Or.inr (Or.inl ⟨_, rfl, rfl⟩)
  | some g =>
    simp only
    cases hf : flush wordexp pending ss with
    | mk done ss₁ =>
      cases done with
      | none => exact Or.inl ⟨_, _, rfl, flush_failed hf⟩
      | some done =>
        simp only
        cases hg : g.scan u with
        | none => exact Or.inr (Or.inl ⟨_, rfl, rfl⟩)
        | some g => exact Or.inr (Or.inr ⟨g, _, _, _, rfl, rfl⟩)

/-- The pieces from `u` on that end a line of the grammar. -/
def Acceptable (first : Bool) (rest : List (Connector × CString)) (u : CString) : Prop :=
  (u ∈ complexRule ∧ ∀ p ∈ rest, p.2 ∈ complexRule) ∨
    (first = true ∧ rest = [] ∧ ∀ c ∈ u, classify c = .space)

/-- A verdict fits the grammar, unless an expansion failed. -/
def Verdict.Fits (v : Verdict) (acceptable : Prop) : Prop :=
  match v with
  | accepted _ _ => acceptable
  | rejected _ => ¬ acceptable
  | aborted _ ss => ss.Failed

theorem nil_not_mem_complexRule : [] ∉ complexRule := by
  rw [mem_complexRule_iff_scan]
  rintro ⟨g, hg, hcomp⟩
  cases hg
  exact hcomp rfl

/-- What was read of a blank line. -/
theorem scan_blank_iff (hg : Complex.empty.scan u = some g) :
    (¬ g.Complete ∧ g.kinds = [.command]) ↔ ∀ c ∈ u, classify c = .space := by
  obtain ⟨hr, hw⟩ := Complex.scan_render Complex.wellFormed_empty hg
  constructor
  · rintro ⟨hcomp, hk⟩
    have hb : g.background = none := by
      cases hb : g.background with
      | none => rfl
      | some trail => exact absurd (hw.background trail hb).1 hcomp
    have hd : g.done = [] := by
      rw [Complex.kinds, Complex.parts, List.map_cons, List.cons.injEq] at hk
      exact List.map_eq_nil_iff.mp hk.2
    have hkind : g.current.kind = .command := by
      rw [Complex.kinds, Complex.parts, List.map_cons, List.cons.injEq] at hk
      exact hk.1
    have ht : g.current.text = [] := not_not.mp hcomp
    have hu : u = g.current.gap := by
      simpa [Complex.render, Complex.parts, Complex.tail, hb, hd, Part.render, hkind,
        Kind.operator, ht, Complex.empty] using hr.symm
    rw [hu]
    exact hw.gap g.current List.mem_cons_self
  · intro hu
    rw [Complex.scan_gap rfl rfl hu] at hg
    cases hg
    exact ⟨not_not.mpr rfl, rfl⟩

theorem endLine_fits (hg : Complex.empty.scan u = some g) :
    (endLine wordexp first g addr queue ss).Fits (Acceptable first [] u) := by
  rw [endLine]
  by_cases hcomp : g.Complete
  · rw [if_pos hcomp]
    cases hf : g.finish wordexp addr g.mask ss with
    | mk done ss' =>
      cases done with
      | none => exact finish_failed hf
      | some command =>
        exact Or.inl ⟨mem_complexRule_iff_scan.mpr ⟨g, hg, hcomp⟩, by simp⟩
  · have hnot : u ∉ complexRule := by
      rw [mem_complexRule_iff_scan]
      rintro ⟨g', hg', hcomp'⟩
      cases hg.symm.trans hg'
      exact hcomp hcomp'
    rw [if_neg hcomp]
    by_cases hblank : first = true ∧ g.kinds = [.command]
    · rw [if_pos hblank]
      exact Or.inr ⟨hblank.1, rfl, (scan_blank_iff hg).mp ⟨hcomp, hblank.2⟩⟩
    · rw [if_neg hblank]
      rintro (h | ⟨hfirst, _, hu⟩)
      · exact hnot h.1
      · exact hblank ⟨hfirst, ((scan_blank_iff hg).mpr hu).2⟩

/-- The run from a piece on accepts what the grammar allows, unless an expansion fails. -/
theorem interpret_fits (wordexp : Wordexp) (rest : List (Connector × CString)) (first : Bool)
    (pending : Option Pending) (u : CString) (queue : Queue) (ss : Session) :
    (interpret wordexp rest first pending u queue ss).Fits (Acceptable first rest u) := by
  induction rest generalizing first pending u queue ss with
  | nil =>
    cases u with
    | nil =>
      rw [interpret]
      cases first with
      | true => exact Or.inr ⟨rfl, rfl, by simp⟩
      | false =>
        rintro (h | ⟨hfirst, _⟩)
        · exact nil_not_mem_complexRule h.1
        · cases hfirst
    | cons c u =>
      rw [interpret]
      obtain ⟨q, ss', hv, hfail⟩ | ⟨ss', hv, hscan⟩ | ⟨g, addr, q, ss', hscan, hv⟩ :=
        readPiece_cases wordexp pending c u queue ss (endLine wordexp first)
      · rw [hv]
        exact hfail
      · rw [hv]
        rintro (h | ⟨_, _, hu⟩)
        · obtain ⟨g, hg, _⟩ := mem_complexRule_iff_scan.mp h.1
          cases hscan.symm.trans hg
        · rw [Complex.scan_gap rfl rfl hu] at hscan
          cases hscan
      · rw [hv]
        exact endLine_fits hscan
  | cons p rest ih =>
    obtain ⟨k, u'⟩ := p
    have hacc : Acceptable first ((k, u') :: rest) u ↔
        u ∈ complexRule ∧ Acceptable false rest u' := by
      simp [Acceptable]
    rw [hacc]
    cases u with
    | nil => exact fun h => nil_not_mem_complexRule h.1
    | cons c u =>
      rw [interpret]
      obtain ⟨q, ss', hv, hfail⟩ | ⟨ss', hv, hscan⟩ | ⟨g, addr, q, ss', hscan, hv⟩ :=
        readPiece_cases wordexp pending c u queue ss fun g addr queue ss =>
            if g.Complete then interpret wordexp rest false (some ⟨g, k.mask g, addr⟩) u' queue ss
            else .rejected ss
      · rw [hv]
        exact hfail
      · rw [hv]
        rintro ⟨h, _⟩
        obtain ⟨g, hg, _⟩ := mem_complexRule_iff_scan.mp h
        cases hscan.symm.trans hg
      · rw [hv]
        by_cases hcomp : g.Complete
        · have hmem := mem_complexRule_iff_scan.mpr ⟨g, hscan, hcomp⟩
          have hfits := ih false (some ⟨g, k.mask g, addr⟩) u' q ss'
          rw [if_pos hcomp]
          simpa [hmem] using hfits
        · rw [if_neg hcomp]
          rintro ⟨h, _⟩
          obtain ⟨g', hg', hcomp'⟩ := mem_complexRule_iff_scan.mp h
          cases hscan.symm.trans hg'
          exact hcomp hcomp'

theorem acceptable_splitLine {line : CString} :
    Acceptable true (splitLine line).2 (splitLine line).1 ↔ line ∈ mainRule := by
  rw [mem_mainRule, Acceptable, or_comm]
  refine or_congr ?_ Iff.rfl
  constructor
  · rintro ⟨_, hrest, hu⟩
    have hjoin := joinRest_splitLine line
    rw [hrest, joinRest, List.flatMap_nil, List.append_nil] at hjoin
    rwa [← hjoin]
  · intro hspace
    have hsplit := splitLine_join [] (fun c hc => by
      rw [findConnector_eq_none_iff, hspace c hc]
      decide) (by simp)
    rw [joinRest, List.flatMap_nil, List.append_nil] at hsplit
    rw [hsplit]
    exact ⟨rfl, rfl, hspace⟩

end Redshell
