import Redshell.Queued

/-! Lines outside the grammar, and the expansions made before they are rejected. -/
namespace Redshell

variable {wordexp : Wordexp} {ss ss' : Session} {g : Complex} {u v : CString} {queue : Queue}
  {first : Bool} {addr : Nat} {mask : Connection} {k : Connector}
  {rest : List (Connector × CString)}

theorem expandPart_calls (wordexp : Wordexp) (ss : Session) (text : CString) :
    ss.calls.length ≤ (expandPart wordexp text ss).2.calls.length := by
  rw [(expandPart_snd text).2.2]
  omega

/-- A complex that is finished has been handed to `wordexp`. -/
theorem finish_calls (wordexp : Wordexp) (g : Complex) (addr : Nat) (mask : Connection)
    (ss : Session) :
    ss.calls.length < (g.finish wordexp addr mask ss).2.calls.length := by
  have hglob : ∀ text, (expandGlob wordexp (expandAliasIn text ss).1
      (expandAliasIn text ss).2).2.calls.length = ss.calls.length + 1 := fun _ => rfl
  dsimp only [Complex.finish]
  split
  · next ss₁ h =>
    have hlen := hglob ((g.textOf .command).take bufSize)
    rw [h] at hlen
    dsimp only at hlen ⊢
    omega
  · next words ss₁ h =>
    have hlen := hglob ((g.textOf .command).take bufSize)
    rw [h] at hlen
    have hin := expandPart_calls wordexp ss₁ ((g.textOf .stdin).take bufSize)
    have hout := expandPart_calls wordexp
      (expandPart wordexp ((g.textOf .stdin).take bufSize) ss₁).2 ((g.textOf .stdout).take bufSize)
    dsimp only at hlen ⊢
    omega

/-- No run undoes an expansion. -/
theorem interpret_calls (wordexp : Wordexp) (rest : List (Connector × CString)) (first : Bool)
    (u : CString) (queue : Queue) (ss : Session) :
    ss.calls.length ≤
      (interpret wordexp rest first none u queue ss).session.calls.length := by
  refine interpret_induction wordexp
    (motive := fun ss _ _ _ _ v => ss.calls.length ≤ v.session.calls.length)
    ?rejected ?blank ?unopened ?failed ?last ?cons rest first u queue ss
  case rejected => exact fun ss ss' u rest first queue _ hcalls => (congrArg List.length hcalls).ge
  case blank => exact fun ss ss' u rest queue _ hcalls => (congrArg List.length hcalls).ge
  case unopened => exact fun _ _ _ _ _ _ _ _ => le_rfl
  case failed =>
    intro ss ss' g mask rest first queue _ _ hfin _
    have hcalls := finish_calls wordexp g ss.created mask { ss with created := ss.created + 1 }
    rw [hfin] at hcalls
    exact hcalls.le
  case last =>
    intro ss ss' g command first queue _ _ hfin
    have hcalls := finish_calls wordexp g ss.created g.mask { ss with created := ss.created + 1 }
    rw [hfin] at hcalls
    exact hcalls.le
  case cons =>
    intro ss ss' g k v rest command first queue verdict _ _ hfin ih
    have hcalls := finish_calls wordexp g ss.created (k.mask g)
      { ss with created := ss.created + 1 }
    rw [hfin] at hcalls
    exact hcalls.le.trans ih

/-- The first segment is a complex, and after its connector another one starts. -/
def Entered (line : CString) : Prop :=
  (splitLine line).1 ∈ complexRule ∧ ∃ p, (splitLine line).2.head? = some p ∧ opens p.2 = true

/-- A line outside the grammar has no effect exactly when no second segment starts after a first
one that is a complex. -/
theorem parseInput_no_effect_iff (wordexp : Wordexp) (ss : Session) (line : CString)
    (hline : ∀ c ∈ line, c ≠ 0) (hnot : line ∉ mainRule) :
    ∃ r, parseInput wordexp ss line = .ok r ∧
      (r.queue = [] ∧ r.session.calls = ss.calls ↔ ¬ Entered line) := by
  obtain ⟨r, hr, hqueue, hsession, _⟩ := parseInput_spec wordexp ss hline
  refine ⟨r, hr, ?_⟩
  rw [hqueue, hsession, interpretLine]
  have hfits := interpret_fits wordexp (splitLine line).2 true none (splitLine line).1 queueNew ss
  rw [acceptable_splitLine] at hfits
  by_cases hu : (splitLine line).1 ∈ complexRule
  · obtain ⟨g, hg, hcomp⟩ := mem_complexRule_iff_scan.mp hu
    cases hrest : (splitLine line).2 with
    | nil =>
      refine absurd ?_ hnot
      rw [mem_mainRule, hrest]
      exact .inr ⟨hu, fun p hp => by cases hp⟩
    | cons p rest =>
      obtain ⟨k, v⟩ := p
      rw [interpret_cons k hg hcomp]
      by_cases hv : opens v = true
      · rw [if_pos hv]
        refine iff_of_false ?_ (not_not.mpr ⟨hu, (k, v), by rw [hrest]; rfl, hv⟩)
        rintro ⟨_, hcalls⟩
        have hfinish := finish_calls wordexp g ss.created (k.mask g)
          { ss with created := ss.created + 1 }
        have hgrow : ss.calls.length < ss.calls.length := by
          conv_rhs => rw [← hcalls]
          cases hfin : g.finish wordexp ss.created (k.mask g)
              { ss with created := ss.created + 1 } with
          | mk done ss₁ =>
            rw [hfin] at hfinish
            cases done with
            | none => exact hfinish
            | some command =>
              exact hfinish.trans_le (interpret_calls wordexp rest false v _ ss₁)
        exact absurd hgrow (lt_irrefl _)
      · rw [if_neg hv]
        refine iff_of_true ⟨rfl, rfl⟩ ?_
        rintro ⟨_, p, hp, hopens⟩
        rw [hrest] at hp
        cases hp
        exact hv hopens
  · obtain ⟨ss', hrun, hcalls⟩ | ⟨_, ss', hrun, _⟩ :=
      interpret_not_complex wordexp (splitLine line).2 true queueNew ss hu
    · rw [hrun]
      exact iff_of_true ⟨rfl, hcalls⟩ fun h => hu h.1
    · rw [hrun] at hfits
      exact absurd hfits hnot

/-- A complex, and a connector at the end of the line. -/
theorem parseInput_no_effect_iff_ls :
    ∃ r, parseInput (fun _ text => some [text]) ⟨Dictionary.empty.toAliases, [], 0⟩
        (bytes "ls ;") = .ok r ∧
      (r.queue = [] ∧ r.session.calls = [] ↔ ¬ Entered (bytes "ls ;")) :=
  parseInput_no_effect_iff (fun _ text => some [text]) ⟨Dictionary.empty.toAliases, [], 0⟩ _
    (by decide +kernel) (by decide +kernel)

/-- In `$(touch x); >` the substitution is expanded before the line is rejected. -/
theorem parseInput_expands_rejected :
    ¬ ∀ (wordexp : Wordexp) (ss : Session) (line : CString), (∀ c ∈ line, c ≠ 0) →
      line ∉ mainRule →
      ∃ r, parseInput wordexp ss line = .ok r ∧ r.queue = [] ∧ r.session.calls = ss.calls := by
  intro hall
  obtain ⟨r, hr, _, hcalls⟩ := hall (fun _ text => some [text])
    ⟨Dictionary.empty.toAliases, [], 0⟩ (bytes "$(touch x); >") (by decide +kernel)
    (by decide +kernel)
  have hrun : (parseInput (fun _ text => some [text]) ⟨Dictionary.empty.toAliases, [], 0⟩
      (bytes "$(touch x); >")).map (fun r => r.session.calls.map (·.text)) =
      .ok [bytes "$(touch x)"] := by decide +kernel
  rw [hr] at hrun
  have htexts : r.session.calls.map (·.text) = [bytes "$(touch x)"] := Except.ok.inj hrun
  rw [hcalls] at htexts
  cases htexts

end Redshell
