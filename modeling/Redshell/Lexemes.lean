import Redshell.Cut

/-! The words and the operators of a text, whatever blanks stand between them. -/
namespace Redshell.Lexemes

variable {α : Type}

/-- The text starts inside a word. -/
def startsWord (blank op : α → Bool) (s : List α) : Bool :=
  s.head?.any fun c => !blank c && !op c

/-- The words of a text, and every operator on its own, in order. -/
def lexemes (blank op : α → Bool) : List α → List (List α)
  | [] => []
  | c :: s =>
    if blank c then lexemes blank op s
    else if op c || !startsWord blank op s then [c] :: lexemes blank op s
    else (lexemes blank op s).modifyHead (c :: ·)

/-- The words of a text without operators. -/
abbrev words (blank : α → Bool) (s : List α) : List (List α) := lexemes blank (fun _ => false) s

/-- What is left of some lexemes when the text loses its first elements with `q`. -/
def strip (q : α → Bool) : List (List α) → List (List α)
  | [] => []
  | x :: xs => if x.all q then strip q xs else x.dropWhile q :: xs

variable {blank op p q : α → Bool} {s t : List α} {c : α} {x : List α}

theorem lexemes_op (hc : op c = true) (hb : blank c = false) :
    lexemes blank op (c :: s) = [c] :: lexemes blank op s := by
  rw [lexemes, hb, hc]
  rfl

/-- A lexeme starts with the first element that is no blank. -/
theorem exists_lexemes_cons (op : α → Bool) (s : List α) (hb : blank c = false) :
    ∃ y ys, lexemes blank op (c :: s) = (c :: y) :: ys := by
  induction s generalizing c with
  | nil =>
    refine ⟨[], [], ?_⟩
    rw [lexemes, hb]
    simp [startsWord, lexemes]
  | cons d s ih =>
    rw [lexemes, hb]
    by_cases hstart : startsWord blank op (d :: s) = true
    · have hd : blank d = false ∧ op d = false := by simpa [startsWord] using hstart
      obtain ⟨y, ys, hlex⟩ := ih hd.1
      rw [hstart, hlex]
      cases op c with
      | true => exact ⟨[], _, rfl⟩
      | false => exact ⟨d :: y, ys, rfl⟩
    · rw [Bool.not_eq_true] at hstart
      rw [hstart]
      exact ⟨[], lexemes blank op (d :: s), by simp⟩

theorem lexemes_ne_nil (h : startsWord blank op s = true) : lexemes blank op s ≠ [] := by
  cases s with
  | nil => cases h
  | cons c s =>
    have hc : blank c = false ∧ op c = false := by simpa [startsWord] using h
    obtain ⟨y, ys, hlex⟩ := exists_lexemes_cons op s hc.1
    rw [hlex]
    exact List.cons_ne_nil _ _

/-- A text can be cut in two anywhere but inside a word. -/
theorem lexemes_append (s : List α) (h : startsWord blank op t = false) :
    lexemes blank op (s ++ t) = lexemes blank op s ++ lexemes blank op t := by
  induction s with
  | nil => rfl
  | cons c s ih =>
    rw [List.cons_append, lexemes, lexemes, ih]
    by_cases hb : blank c = true
    · rw [if_pos hb, if_pos hb]
    · rw [if_neg hb, if_neg hb]
      cases s with
      | nil =>
        rw [List.nil_append, h]
        simp [startsWord, lexemes]
      | cons d s =>
        have hstart : startsWord blank op (d :: s ++ t) = startsWord blank op (d :: s) := rfl
        rw [hstart]
        split
        · rfl
        · next hcond =>
          have hword : startsWord blank op (d :: s) = true := by
            rw [Bool.or_eq_true, not_or, Bool.not_eq_true' , Bool.not_eq_false] at hcond
            exact hcond.2
          have hne := lexemes_ne_nil hword
          obtain ⟨y, ys, hlex⟩ := List.exists_cons_of_ne_nil hne
          rw [hlex]
          rfl

theorem startsWord_op (hc : op c = true) : startsWord blank op (c :: s) = false := by
  simp [startsWord, hc]

theorem startsWord_blank (hc : blank c = true) : startsWord blank op (c :: s) = false := by
  simp [startsWord, hc]

/-- Only elements of the text that are no blanks stand in its lexemes. -/
theorem mem_lexemes (hx : x ∈ lexemes blank op s) (hc : c ∈ x) : c ∈ s ∧ blank c = false := by
  induction s generalizing x with
  | nil => cases hx
  | cons d s ih =>
    rw [lexemes] at hx
    split at hx
    · obtain ⟨hmem, hblank⟩ := ih hx hc
      exact ⟨List.mem_cons_of_mem _ hmem, hblank⟩
    · next hd =>
      have hself : d ∈ d :: s ∧ blank d = false := ⟨List.mem_cons_self, Bool.not_eq_true _ ▸ hd⟩
      have hlater : ∀ y ∈ lexemes blank op s, c ∈ y → c ∈ d :: s ∧ blank c = false := by
        intro y hy hcy
        obtain ⟨hmem, hblank⟩ := ih hy hcy
        exact ⟨List.mem_cons_of_mem _ hmem, hblank⟩
      split at hx
      · rcases List.mem_cons.mp hx with rfl | hx
        · obtain rfl := List.mem_singleton.mp hc
          exact hself
        · exact hlater x hx hc
      · cases hlex : lexemes blank op s with
        | nil =>
          rw [hlex] at hx
          cases hx
        | cons y ys =>
          rw [hlex, List.modifyHead_cons] at hx
          rw [hlex] at hlater
          rcases List.mem_cons.mp hx with rfl | hx
          · rcases List.mem_cons.mp hc with rfl | hc
            · exact hself
            · exact hlater y List.mem_cons_self hc
          · exact hlater x (List.mem_cons_of_mem _ hx) hc

/-- An operator is a lexeme of its own. -/
theorem singleton_mem_iff (hc : op c = true) (hb : blank c = false) :
    [c] ∈ lexemes blank op s ↔ c ∈ s := by
  constructor
  · intro h
    exact (mem_lexemes h (List.mem_singleton_self c)).1
  · intro h
    obtain ⟨a, b, rfl⟩ := List.append_of_mem h
    rw [lexemes_append a (startsWord_op hc), lexemes_op hc hb]
    exact List.mem_append_right _ List.mem_cons_self

/-- A cut at an operator is a cut of the lexemes. -/
theorem lexemes_cut (hp : ∀ c, p c = true → op c = true ∧ blank c = false) (s : List α) :
    lexemes blank op (Cut.before p s) = Cut.before (fun x => x.any p) (lexemes blank op s) ∧
      lexemes blank op (Cut.onward p s) = Cut.onward (fun x => x.any p) (lexemes blank op s) := by
  have hbefore : ∀ x ∈ lexemes blank op (Cut.before p s), x.any p = false := by
    intro x hx
    rw [List.any_eq_false]
    intro c hc
    rw [Cut.before_separator (mem_lexemes hx hc).1]
    exact Bool.false_ne_true
  cases honward : Cut.onward p s with
  | nil =>
    have hs : Cut.before p s = s := Cut.before_of_none (Cut.onward_eq_nil_iff.mp honward)
    rw [hs] at hbefore
    rw [hs, Cut.before_of_none hbefore]
    exact ⟨rfl, (Cut.onward_eq_nil_iff.mpr hbefore).symm⟩
  | cons c t =>
    obtain ⟨hop, hblank⟩ := hp c (Cut.onward_head honward)
    have hsplit : lexemes blank op s =
        lexemes blank op (Cut.before p s) ++ [c] :: lexemes blank op t := by
      conv_lhs => rw [← Cut.before_append_onward p s, honward]
      rw [lexemes_append _ (startsWord_op hop), lexemes_op hop hblank]
    have hc : ([c].any p) = true := by simp [Cut.onward_head honward]
    have hcut := Cut.before_cons_of_separator (p := fun x : List α => x.any p)
      (t := lexemes blank op t) hc
    have hrest := Cut.onward_cons_of_separator (p := fun x : List α => x.any p)
      (t := lexemes blank op t) hc
    rw [hsplit, Cut.before_append_of_none hbefore, Cut.onward_append_of_none hbefore, hcut, hrest,
      List.append_nil, lexemes_op hop hblank]
    exact ⟨rfl, rfl⟩

/-- The elements that are skipped are blanks and parts of words. -/
theorem lexemes_dropWhile (hblank : ∀ c, blank c = true → q c = true)
    (hop : ∀ c, op c = true → q c = false) (s : List α) :
    lexemes blank op (s.dropWhile q) = strip q (lexemes blank op s) := by
  induction s with
  | nil => rfl
  | cons c s ih =>
    by_cases hq : q c = true
    · rw [List.dropWhile_cons_of_pos hq, ih, lexemes]
      split
      · rfl
      · have hc : op c = false := by
          by_contra hc
          rw [hop c (Bool.not_eq_false _ ▸ hc)] at hq
          cases hq
        rw [hc, Bool.false_or]
        split
        · simp [strip, hq]
        · cases lexemes blank op s with
          | nil => rfl
          | cons y ys => simp [strip, hq]
    · have hb : blank c = false := by
        by_contra hb
        exact hq (hblank c (Bool.not_eq_false _ ▸ hb))
      obtain ⟨y, ys, hlex⟩ := exists_lexemes_cons op s hb
      rw [List.dropWhile_cons_of_neg hq, hlex, strip]
      simp [hq]

/-- Without operators the lexemes are the words. -/
theorem lexemes_eq_words (h : ∀ c ∈ s, op c = false) : lexemes blank op s = words blank s := by
  induction s with
  | nil => rfl
  | cons c s ih =>
    obtain ⟨hc, hs⟩ := List.forall_mem_cons.mp h
    have hstart : startsWord blank op s = startsWord blank (fun _ => false) s := by
      cases s with
      | nil => rfl
      | cons d s => simp [startsWord, hs d List.mem_cons_self]
    rw [words, lexemes, lexemes, ih hs, hc, hstart]

/-- What follows the first blank of a kind has its own words. -/
theorem words_append_onward (hp : ∀ c, p c = true → blank c = true) (s t : List α) :
    words blank (s ++ Cut.onward p t) = words blank s ++ words blank (Cut.onward p t) := by
  apply lexemes_append
  cases honward : Cut.onward p t with
  | nil => rfl
  | cons c t => exact startsWord_blank (hp c (Cut.onward_head honward))

end Redshell.Lexemes
