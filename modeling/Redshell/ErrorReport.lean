import Redshell.Owned
import Redshell.Quoting

/-! The two characters that `parseInput` prints on a syntax error, and where they stand. -/
namespace Redshell

/-- The indices that the error report reads: those of `*(p-1)` and of `*p`. -/
def Parse.reported (r : Parse) : List Int :=
  if r.cs = parserError then [(r.p : Int) - 1, (r.p : Int)] else []

/-- The indices lie in the line with its terminating NUL. -/
def ReportsInside (line : CString) (r : Parse) : Prop :=
  ∀ i ∈ r.reported, 0 ≤ i ∧ i ≤ (line.length : Int)

theorem reportsInside_iff {line : CString} {r : Parse} :
    ReportsInside line r ↔ (r.cs = parserError → 1 ≤ r.p ∧ r.p ≤ line.length) := by
  unfold ReportsInside Parse.reported
  by_cases hcs : r.cs = parserError
  · simp only [hcs, if_true, List.forall_mem_cons, List.not_mem_nil, false_implies, implies_true,
      and_true, true_implies]
    omega
  · simp [hcs]

def StartsWithOperator (line : CString) : Prop := ∃ c rest, line = c :: rest ∧ isOperator c = true

theorem isOperator_of_isText {c : UInt8} (h : isText c = true) : isOperator c = false := by
  have hclass : findConnector c = none := findConnector_eq_none_iff.mpr (by
    rcases of_decide_eq_true h with h | h <;> rw [h] <;> decide)
  rw [isOperator, Complex.isMark_of_isText h, hclass]
  rfl

/-- An operator cannot start a line, and everything else can. -/
theorem step_start_eq_error_iff {c : UInt8} (hc : c ≠ 0) :
    ParserState.start.step (classify c) = (.error, []) ↔ isOperator c = true := by
  constructor
  · intro hstep
    by_contra hop
    have htext := isText_of_not_operator (Bool.eq_false_iff.mpr hop) hc
    rcases of_decide_eq_true htext with hclass | hclass
    · rw [hclass] at hstep
      cases hstep
    · rw [hclass] at hstep
      cases hstep
  · intro hop
    cases hclass : classify c with
    | nul => exact absurd ((classify_eq_iff c).1.mp hclass) hc
    | word =>
      have hnot := isOperator_of_isText (isText_of_word hclass)
      exact absurd hop (by rw [hnot]; decide)
    | space =>
      have hnot := isOperator_of_isText (isText_of_space hclass)
      exact absurd hop (by rw [hnot]; decide)
    | seq => rfl
    | pipe => rfl
    | stdin => rfl
    | stdout => rfl
    | bg => rfl

namespace Machine

variable {wordexp : Wordexp} {m m' : Machine} {c : UInt8} {code created : Nat} {acts : List Nat}
  {s : ParserState} {done : Machine × Bool} {line : CString} {mask : Connection → Connection}

theorem action_p (hrun : m.action wordexp c code = .ok done) : done.1.p = m.p := by
  cases action_acted hrun with
  | append happ => rfl
  | appendIn happ => rfl
  | appendOut happ => rfl
  | new hnew hp => exact hp
  | term hterm hp hfsm => exact hp
  | setMask hcode hmask hp hfsm => exact hp
  | none hcode => rfl

theorem runActions_p (hrun : m.runActions wordexp c acts = .ok done) : done.1.p = m.p := by
  induction acts generalizing m with
  | nil =>
    cases hrun
    rfl
  | cons code acts ih =>
    obtain ⟨⟨m₁, left⟩, hrun₁, hrun⟩ := Fault.ok_of_bind hrun
    have hp := action_p hrun₁
    cases left with
    | true =>
      cases hrun
      exact hp
    | false => exact (ih hrun).trans hp

/-- A turn ends in an error where it started, or moves on by one byte. -/
theorem turn_p (hrun : m.turn wordexp c = .ok done) (hm : m.InState created s) :
    (s.step (classify c) = (.error, []) ∧ done = (m.setCs parserError, true)) ∨
      (s.step (classify c) ≠ (.error, []) ∧ done.1.fsm.cs ≠ parserError ∧
        done.1.p = m.p + 1) := by
  obtain herror | ⟨done₁, _, hrun₁, _, hcs, hcode, rfl, _⟩ := turn_cases hrun hm
  · exact .inl herror
  · have hp : done₁.1.p = (m.setCs (s.step (classify c)).1.code).p := runActions_p hrun₁
    refine .inr ⟨fun hstep => hcode ?_, hcode, congrArg (· + 1) hp⟩
    rw [hcs, hstep]
    rfl

/-- A run that ends in the error ends at a byte of the line or at its NUL, and not before it
started. -/
theorem exec_p (hrun : m.exec wordexp (line ++ [0]) = .ok m') (hline : ∀ c ∈ line, c ≠ 0)
    (hm : m.InState created s) (herror : m'.fsm.cs = parserError) :
    m.p ≤ m'.p ∧ m'.p ≤ m.p + line.length := by
  induction line generalizing m s with
  | nil =>
    obtain ⟨⟨m₁, left⟩, hturn, hrun⟩ := Fault.ok_of_bind hrun
    have hm' : m₁ = m' := by cases left <;> exact Except.ok.inj hrun
    subst hm'
    obtain ⟨_, hdone⟩ | ⟨_, hcode, _⟩ := turn_p hturn hm
    · cases hdone
      exact ⟨le_rfl, le_rfl⟩
    · exact absurd herror hcode
  | cons c line ih =>
    obtain ⟨hc, hline⟩ := List.forall_mem_cons.mp hline
    obtain ⟨⟨m₁, left⟩, hturn, hrun⟩ := Fault.ok_of_bind hrun
    have hnext := (turn_owns hturn hm).2
    obtain ⟨_, hdone⟩ | ⟨_, hcode, hp⟩ := turn_p hturn hm
    · cases hdone
      cases hrun
      exact ⟨le_rfl, Nat.le_add_right _ _⟩
    · cases left with
      | true =>
        cases hrun
        exact absurd herror hcode
      | false =>
        obtain ⟨hlow, hhigh⟩ := ih (m := m₁) hrun hline (hnext rfl hc)
        dsimp only at hp
        rw [List.length_cons]
        omega

end Machine

/-- The report stays inside the line exactly when the line does not start with an operator. -/
theorem parseInput_report_inside_iff (wordexp : Wordexp) (ss : Session) (line : CString)
    (hline : ∀ c ∈ line, c ≠ 0) :
    ∃ r, parseInput wordexp ss line = .ok r ∧
      (ReportsInside line r ↔ ¬ StartsWithOperator line) := by
  obtain ⟨r, hparse, _⟩ := parseInput_spec wordexp ss hline
  refine ⟨r, hparse, ?_⟩
  obtain ⟨m, hexec, hr⟩ := Fault.ok_of_bind hparse
  cases hr
  rw [reportsInside_iff]
  change (m.fsm.cs = parserError → 1 ≤ m.p ∧ m.p ≤ line.length) ↔ _
  have hstart := Machine.inState_start ss
  cases line with
  | nil =>
    refine iff_of_true (fun herror => ?_) (by rintro ⟨c, rest, h, _⟩; cases h)
    obtain ⟨⟨m₁, left⟩, hturn, hrun⟩ := Fault.ok_of_bind hexec
    have hm : m₁ = m := by cases left <;> exact Except.ok.inj hrun
    subst hm
    obtain ⟨hstep, _⟩ | ⟨_, hcode, _⟩ := Machine.turn_p hturn hstart
    · exact absurd hstep (by decide)
    · exact absurd herror hcode
  | cons c line =>
    obtain ⟨hc, hline⟩ := List.forall_mem_cons.mp hline
    obtain ⟨⟨m₁, left⟩, hturn, hrun⟩ := Fault.ok_of_bind hexec
    have hnext := (Machine.turn_owns hturn hstart).2
    have hstarts : StartsWithOperator (c :: line) ↔ isOperator c = true := by
      constructor
      · rintro ⟨d, rest, hcons, hop⟩
        cases hcons
        exact hop
      · intro hop
        exact ⟨c, line, rfl, hop⟩
    rw [hstarts, ← step_start_eq_error_iff hc]
    obtain ⟨hstep, hdone⟩ | ⟨hstep, hcode, hp⟩ := Machine.turn_p hturn hstart
    · -- The error is found at the first byte, and `p` still points there.
      cases hdone
      cases hrun
      refine iff_of_false (fun hinside => ?_) (not_not.mpr hstep)
      exact absurd (hinside rfl).1 (Nat.not_succ_le_zero 0)
    · refine iff_of_true (fun herror => ?_) hstep
      cases left with
      | true =>
        cases hrun
        exact absurd herror hcode
      | false =>
        obtain ⟨hlow, hhigh⟩ := Machine.exec_p (m := m₁) hrun hline (hnext rfl hc) herror
        have hp₁ : m₁.p = 1 := hp
        rw [List.length_cons]
        omega

/-- The line `ls; > a`, whose error is found at its fifth byte. -/
theorem parseInput_report_inside_iff_ls :
    ∃ r, parseInput (fun _ text => some [text]) ⟨Dictionary.empty.toAliases, [], 0⟩
        (bytes "ls; > a") = .ok r ∧
      (ReportsInside (bytes "ls; > a") r ↔ ¬ StartsWithOperator (bytes "ls; > a")) :=
  parseInput_report_inside_iff _ _ _ (by decide +kernel)

/-- For the line `;` the report reads the byte before the line. -/
theorem parseInput_reports_outside :
    ¬ ∀ (wordexp : Wordexp) (ss : Session) (line : CString), (∀ c ∈ line, c ≠ 0) →
      ∀ r, parseInput wordexp ss line = .ok r → r.cs = parserError → ReportsInside line r := by
  intro hall
  have hrun : (parseInput (fun _ text => some [text]) ⟨Dictionary.empty.toAliases, [], 0⟩
      (bytes ";")).map (fun r => (r.cs, r.p)) = .ok (parserError, 0) := by decide +kernel
  cases hparse : parseInput (fun _ text => some [text]) ⟨Dictionary.empty.toAliases, [], 0⟩
      (bytes ";") with
  | error fault =>
    rw [hparse] at hrun
    cases hrun
  | ok r =>
    rw [hparse] at hrun
    obtain ⟨hcs, hp⟩ := Prod.mk.inj (Except.ok.inj hrun)
    have hinside := reportsInside_iff.mp (hall _ _ _ (by decide +kernel) r hparse hcs) hcs
    omega

end Redshell
