import Redshell.Accepted
import Redshell.AliasRounds
import Redshell.Lexemes
import Redshell.Quoting

/-! The commands of two lines that differ only in their blanks. -/
namespace Redshell

open Lexemes

/-- A space or a tab. -/
def isGap (c : UInt8) : Bool := c == 32 || c == 9

def isConnector (c : UInt8) : Bool := (findConnector c).isSome

/-- The words and operators of a line, without the blanks between them. -/
def lexemesOf (s : CString) : List CString := lexemes isGap isOperator s

/-- The blank-separated words of a text. -/
def wordsOf (s : CString) : List CString := words isGap s

/-- The text has no quotes and no backslashes. -/
def Unquoted (s : CString) : Prop := ∀ c ∈ s, c ≠ 34 ∧ c ≠ 39 ∧ c ≠ 92

/-- On texts without quotes and backslashes the words decide. -/
def DependsOnWords (wordexp : Wordexp) : Prop :=
  ∀ n n' s t, Unquoted s → Unquoted t → wordsOf s = wordsOf t → wordexp n s = wordexp n' t

variable {wordexp : Wordexp} {d : Dictionary} {c : UInt8} {s t u u₁ u₂ : CString}
  {m : CString → Option CString} {used : List CString} {final cmd result : CString}
  {rest₁ rest₂ : List (Connector × CString)} {k : Connector}

theorem isGap_cases (h : isGap c = true) : c = 32 ∨ c = 9 := by simpa [isGap] using h

theorem isSpace_of_gap (h : isGap c = true) : isSpace c = true := by
  rcases isGap_cases h with rfl | rfl <;> decide

theorem mark_cases (h : isMark c = true) : c = 60 ∨ c = 62 ∨ c = 38 := by
  simpa [isMark, or_assoc] using h

theorem isConnector_iff : isConnector c = true ↔ classify c = .seq ∨ classify c = .pipe := by
  rw [isConnector, Option.isSome_iff_ne_none, Ne, findConnector_eq_none_iff, not_and_or, not_not,
    not_not]

theorem isSpace_of_operator (h : isOperator c = true) : isSpace c = false := by
  rcases Bool.or_eq_true_iff.mp h with h | h
  · rcases mark_cases h with rfl | rfl | rfl <;> decide
  · rcases isConnector_iff.mp h with h | h <;> simp [isSpace, h]

theorem operator_of_mark (h : isMark c = true) : isOperator c = true ∧ isGap c = false := by
  rcases mark_cases h with rfl | rfl | rfl <;> decide

theorem operator_of_connector (h : isConnector c = true) :
    isOperator c = true ∧ isGap c = false := by
  refine ⟨Bool.or_eq_true_iff.mpr (.inr h), ?_⟩
  by_contra hgap
  rcases isGap_cases (Bool.not_eq_false _ ▸ hgap) with rfl | rfl <;> revert h <;> decide

theorem isConnector_byte (k : Connector) : isConnector k.byte = true := by
  cases k <;> decide

/-! Segments of lines with the same lexemes. -/

/-- A piece, and what comes after it. -/
theorem lexemesOf_piece (hu : ∀ c ∈ u, isConnector c = false)
    (rest : List (Connector × CString)) :
    lexemesOf u = Cut.before (fun x => x.any isConnector) (lexemesOf (u ++ joinRest rest)) ∧
      lexemesOf (joinRest rest) =
        Cut.onward (fun x => x.any isConnector) (lexemesOf (u ++ joinRest rest)) := by
  have hseparates : ∀ c, isConnector c = true → isOperator c = true ∧ isGap c = false :=
    fun c hc => operator_of_connector hc
  have hcut := lexemes_cut hseparates (u ++ joinRest rest)
  rw [Cut.before_append_of_none hu, Cut.onward_append_of_none hu] at hcut
  have hrest : Cut.before isConnector (joinRest rest) = [] ∧
      Cut.onward isConnector (joinRest rest) = joinRest rest := by
    cases rest with
    | nil => exact ⟨rfl, rfl⟩
    | cons p rest =>
      exact ⟨Cut.before_cons_of_separator (isConnector_byte p.1),
        Cut.onward_cons_of_separator (isConnector_byte p.1)⟩
  rw [hrest.1, hrest.2, List.append_nil] at hcut
  exact hcut

theorem lexemesOf_join (p : Connector × CString) (rest : List (Connector × CString)) :
    lexemesOf (joinRest (p :: rest)) = [p.1.byte] :: lexemesOf (p.2 ++ joinRest rest) := by
  obtain ⟨hop, hgap⟩ := operator_of_connector (isConnector_byte p.1)
  exact lexemes_op hop hgap

/-- Lines with the same lexemes have the same connectors, and pieces with the same lexemes. -/
theorem pieces_alike (hu₁ : ∀ c ∈ u₁, isConnector c = false)
    (hu₂ : ∀ c ∈ u₂, isConnector c = false)
    (hrest₁ : ∀ p ∈ rest₁, ∀ c ∈ p.2, isConnector c = false)
    (hrest₂ : ∀ p ∈ rest₂, ∀ c ∈ p.2, isConnector c = false)
    (h : lexemesOf (u₁ ++ joinRest rest₁) = lexemesOf (u₂ ++ joinRest rest₂)) :
    lexemesOf u₁ = lexemesOf u₂ ∧
      List.Forall₂ (fun p₁ p₂ => p₁.1 = p₂.1 ∧ lexemesOf p₁.2 = lexemesOf p₂.2) rest₁ rest₂ := by
  induction rest₁ generalizing u₁ u₂ rest₂ with
  | nil =>
    obtain ⟨hfirst₁, hlater₁⟩ := lexemesOf_piece hu₁ []
    obtain ⟨hfirst₂, hlater₂⟩ := lexemesOf_piece hu₂ rest₂
    rw [← h, ← hlater₁] at hlater₂
    refine ⟨by rw [hfirst₁, hfirst₂, h], ?_⟩
    cases rest₂ with
    | nil => exact .nil
    | cons p rest₂ =>
      rw [lexemesOf_join] at hlater₂
      cases hlater₂
  | cons p₁ rest₁ ih =>
    obtain ⟨hfirst₁, hlater₁⟩ := lexemesOf_piece hu₁ (p₁ :: rest₁)
    obtain ⟨hfirst₂, hlater₂⟩ := lexemesOf_piece hu₂ rest₂
    rw [← h, ← hlater₁] at hlater₂
    refine ⟨by rw [hfirst₁, hfirst₂, h], ?_⟩
    cases rest₂ with
    | nil =>
      rw [lexemesOf_join] at hlater₂
      cases hlater₂
    | cons p₂ rest₂ =>
      rw [lexemesOf_join, lexemesOf_join, List.cons.injEq, List.cons.injEq] at hlater₂
      obtain ⟨⟨hbyte, _⟩, hlater⟩ := hlater₂
      have hconnector : p₁.1 = p₂.1 := by
        revert hbyte
        cases p₁.1 <;> cases p₂.1 <;> decide
      obtain ⟨hp₁, hrest₁⟩ := List.forall_mem_cons.mp hrest₁
      obtain ⟨hp₂, hrest₂⟩ := List.forall_mem_cons.mp hrest₂
      obtain ⟨hpiece, hrest⟩ := ih hp₁ hp₂ hrest₁ hrest₂ hlater.symm
      exact .cons ⟨hconnector, hpiece⟩ hrest

/-! The texts of a segment. -/

theorem skipSpaces_eq (u : CString) : skipSpaces u = u.dropWhile isSpace := by
  rw [skipSpaces, Cut.onward]
  simp only [Bool.not_not]

theorem lexemesOf_skipSpaces (u : CString) :
    lexemesOf (skipSpaces u) = strip isSpace (lexemesOf u) := by
  rw [skipSpaces_eq]
  exact lexemes_dropWhile (fun c hc => isSpace_of_gap hc) (fun c hc => isSpace_of_operator hc) u

/-- The text that starts somewhere in a piece and ends before the next operator. -/
theorem wordsOf_text (hu : ∀ c ∈ u, isConnector c = false) (hlen : u.length ≤ bufSize) :
    wordsOf ((Cut.before isMark (skipSpaces u)).take bufSize) =
      Cut.before (fun x => x.any isMark) (strip isSpace (lexemesOf u)) := by
  have hskip : ∀ c ∈ skipSpaces u, c ∈ u := by
    intro c hc
    rw [skipSpaces_eq] at hc
    exact (List.dropWhile_sublist _).subset hc
  have hbefore : ∀ c ∈ Cut.before isMark (skipSpaces u), c ∈ skipSpaces u := by
    intro c hc
    rw [← Cut.before_append_onward isMark (skipSpaces u)]
    exact List.mem_append_left _ hc
  have hlength : (Cut.before isMark (skipSpaces u)).length ≤ bufSize := by
    have hle := congrArg List.length (Cut.before_append_onward isMark (skipSpaces u))
    have hdrop := (List.dropWhile_sublist (l := u) isSpace).length_le
    rw [List.length_append] at hle
    rw [skipSpaces_eq] at hle ⊢
    omega
  have hnone : ∀ c ∈ Cut.before isMark (skipSpaces u), isOperator c = false := by
    intro c hc
    rw [isOperator, Cut.before_separator hc]
    exact hu c (hskip c (hbefore c hc))
  rw [List.take_of_length_le hlength, wordsOf, ← lexemes_eq_words hnone,
    (lexemes_cut (fun c hc => operator_of_mark hc) _).1]
  exact congrArg _ (lexemesOf_skipSpaces u)

theorem wordsOf_commandText (hu : ∀ c ∈ u, isConnector c = false) (hlen : u.length ≤ bufSize) :
    wordsOf (commandText u) =
      Cut.before (fun x => x.any isMark) (strip isSpace (lexemesOf u)) := wordsOf_text hu hlen

theorem wordsOf_redirectText (hc : isMark c = true) (hu : ∀ c ∈ u, isConnector c = false)
    (hlen : u.length ≤ bufSize) :
    wordsOf (redirectText c u) = Cut.before (fun x => x.any isMark)
      (strip isSpace (Cut.onward (fun x => x.any (· == c)) (lexemesOf u)).tail) := by
  have hsub := ((List.tail_sublist _).trans
    (List.dropWhile_sublist (l := u) fun a => !(a == c)) : (Cut.onward (· == c) u).tail.Sublist u)
  obtain ⟨hop, hgap⟩ := operator_of_mark hc
  have hseparates : ∀ a, (a == c) = true → isOperator a = true ∧ isGap a = false := by
    intro a ha
    obtain rfl := beq_iff_eq.mp ha
    exact ⟨hop, hgap⟩
  have hcut := (lexemes_cut hseparates u).2
  have htail :
      lexemesOf (Cut.onward (· == c) u).tail = (lexemesOf (Cut.onward (· == c) u)).tail := by
    cases honward : Cut.onward (· == c) u with
    | nil => rfl
    | cons a t =>
      obtain rfl : a = c := by simpa using Cut.onward_head honward
      rw [lexemesOf, lexemesOf, lexemes_op hop hgap]
      rfl
  have htext := wordsOf_text (u := (Cut.onward (· == c) u).tail)
    (fun a ha => hu a (hsub.subset ha)) (hsub.length_le.trans hlen)
  rw [htail] at htext
  change lexemesOf _ = Cut.onward _ (lexemesOf u) at hcut
  rwa [hcut] at htext

theorem mem_iff_of_lexemes (hc : isMark c = true) (h : lexemesOf u₁ = lexemesOf u₂) :
    c ∈ u₁ ↔ c ∈ u₂ := by
  obtain ⟨hop, hgap⟩ := operator_of_mark hc
  have h₁ : [c] ∈ lexemesOf u₁ ↔ c ∈ u₁ := singleton_mem_iff hop hgap
  have h₂ : [c] ∈ lexemesOf u₂ ↔ c ∈ u₂ := singleton_mem_iff hop hgap
  rw [← h₁, h]
  exact h₂

end Redshell
