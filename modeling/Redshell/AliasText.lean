import Redshell.AliasRounds

/-! The text that a command stands for after substitution, and when `expandAlias` returns it. -/
namespace Redshell

/-- The alias-expanded text of a command. -/
def Dictionary.fullText (d : Dictionary) (command : CString) : CString :=
  substitute d.find (d.table.contents.length + 1) [] (Cut.before isBlank command)
    (Cut.onward isBlank command)

/-- The values put in for the first word one after the other, each cut and followed by what stood
after the word. -/
def putIn (cut : CString → CString) (final : CString) (values : List CString) : CString :=
  values.foldl (fun final v => cut v ++ Cut.onward isBlank final) final

/-- What stands after the first words of the cut values, the latest first. -/
def arguments (cut : CString → CString) (values : List CString) : CString :=
  values.reverse.flatMap fun v => Cut.onward isBlank (cut v)

/-- What counts of each value fits the buffer: the last one, and each one before it that has more
than one word. -/
structure WholeValues (values : List CString) : Prop where
  last : ∀ v, values.getLast? = some v → v.length ≤ bufSize
  before : ∀ v ∈ values.dropLast, v.length ≤ bufSize ∨ Cut.onward isBlank v = []

variable {d : Dictionary} {m : CString → Option CString} {used values : List CString}
  {w r v final cmd out result text command : CString} {cut : CString → CString}

/-- The full text is what substitution by the table gives. -/
theorem Dictionary.fullText_spec (d : Dictionary) (command : CString) :
    Substitutes d.find [] (Cut.before isBlank command) (Cut.onward isBlank command)
      (d.fullText command) :=
  substitute_spec d _ (Nat.lt_succ_of_le (unexpanded_length_le d.toAliases [])) _ _

example : (Dictionary.empty.addAlias (bytes "l") (bytes "ls -l")).fullText (bytes "l src") =
    bytes "ls -l src" := by decide +kernel

/-! The text that the values leave. -/

@[simp] theorem putIn_nil (cut : CString → CString) (final : CString) :
    putIn cut final [] = final := rfl

@[simp] theorem putIn_cons (cut : CString → CString) (final v : CString)
    (values : List CString) :
    putIn cut final (v :: values) = putIn cut (cut v ++ Cut.onward isBlank final) values := rfl

theorem putIn_concat (cut : CString → CString) (final v : CString) (values : List CString) :
    putIn cut final (values ++ [v]) = cut v ++ Cut.onward isBlank (putIn cut final values) := by
  simp [putIn]

/-- A first text of one word does not show once a value is put in. -/
theorem putIn_word (hw : Cut.onward isBlank w = []) (hne : values ≠ []) :
    putIn cut w values = putIn cut [] values := by
  cases values with
  | nil => exact absurd rfl hne
  | cons v values => rw [putIn_cons, putIn_cons, hw, Cut.onward_nil]

theorem onward_putIn (cut : CString → CString) (final : CString) (values : List CString) :
    Cut.onward isBlank (putIn cut final values) =
      arguments cut values ++ Cut.onward isBlank final := by
  induction values generalizing final with
  | nil => rfl
  | cons v values ih =>
    rw [putIn_cons, ih, Cut.onward_append_onward, arguments, arguments, List.reverse_cons,
      List.flatMap_append, List.flatMap_singleton, List.append_assoc]

/-- The rounds of the loop put in the values that the name leads to, cut to the buffer. -/
theorem Rounds.eq_putIn (h : Rounds m used final cmd result) (hl : Leads m used cmd values) :
    result = putIn (fun v => v.take bufSize) final values := by
  induction h generalizing values with
  | done hd =>
    cases hl with
    | stop => rfl
    | step hv hu => simp_all
  | again hv hu _ ih =>
    cases hl with
    | stop hd => simp_all
    | step hv' hu' hl =>
      obtain rfl := Option.some.inj (hv.symm.trans hv')
      exact ih hl

/-- Substitution puts them in as they are, before the rest of the command. -/
theorem Substitutes.eq_putIn (h : Substitutes m used w r out) (hl : Leads m used w values)
    (hfinal : w ++ Cut.onward isBlank final = final)
    (hr : r = Cut.onward isBlank final ++ text) : out = putIn id final values ++ text := by
  induction h generalizing values final with
  | stop hd =>
    cases hl with
    | stop => rw [hr, ← List.append_assoc, hfinal, putIn_nil]
    | step hv hu => simp_all
  | @step used w r v out hv hu _ ih =>
    cases hl with
    | stop hd => simp_all
    | step hv' hu' hl =>
      obtain rfl := Option.some.inj (hv.symm.trans hv')
      have hcut := Cut.onward_append_onward isBlank v final
      have hfinal' : Cut.before isBlank v ++ Cut.onward isBlank (v ++ Cut.onward isBlank final) =
          v ++ Cut.onward isBlank final := by
        rw [hcut, ← List.append_assoc, Cut.before_append_onward]
      apply ih hl hfinal'
      rw [hcut, hr, List.append_assoc]

/-- The values vanish exactly when they leave no text at all. -/
theorem Leads.vanishes_iff (h : Leads m used w values) (hw : Cut.onward isBlank w = []) :
    Vanishes m used w ↔ putIn id w values = [] := by
  induction h with
  | @stop used w hd =>
    rw [putIn_nil]
    constructor
    · intro hvan
      by_contra hne
      obtain ⟨v, hv, hu, _⟩ := hvan.step_of_ne_nil hne
      rcases hd with hd | hd
      · cases hv.symm.trans hd
      · exact hu hd
    · rintro rfl
      exact .empty hd
  | @step used values w v hv hu hl ih =>
    rw [putIn_cons, hw, List.append_nil, id]
    have hvan : Vanishes m used w ↔ Cut.onward isBlank v = [] ∧ Vanishes m (w :: used) v := by
      constructor
      · intro hvan
        cases hvan with
        | empty hd =>
          rcases hd with hd | hd
          · cases hv.symm.trans hd
          · exact absurd hd hu
        | step hv' _ hb hvan =>
          obtain rfl := Option.some.inj (hv.symm.trans hv')
          exact ⟨hb, hvan⟩
      · rintro ⟨hb, hvan⟩
        exact .step hv hu hb hvan
    rw [hvan]
    by_cases hb : Cut.onward isBlank v = []
    · have hword : Cut.before isBlank v = v := Cut.before_of_none (Cut.onward_eq_nil_iff.mp hb)
      rw [hword] at ih
      rw [ih hb]
      exact and_iff_right hb
    · refine iff_of_false (fun h => hb h.1) fun hnil => hb ?_
      have honward := onward_putIn id v values
      rw [hnil, Cut.onward_nil] at honward
      exact (List.append_eq_nil_iff.mp honward.symm).2

/-! Values that are cut. -/

/-- Pieces that can only be shorter join to the same text when each of them is the same. -/
theorem flatMap_eq_flatMap_iff {α β : Type} {f g : α → List β} {as : List α}
    (h : ∀ a ∈ as, (f a).length ≤ (g a).length) :
    as.flatMap f = as.flatMap g ↔ ∀ a ∈ as, f a = g a := by
  induction as with
  | nil => simp
  | cons a as ih =>
    obtain ⟨ha, has⟩ := List.forall_mem_cons.mp h
    have hrest : (as.flatMap f).length ≤ (as.flatMap g).length := by
      rw [List.length_flatMap, List.length_flatMap]
      exact List.sum_le_sum has
    rw [List.flatMap_cons, List.flatMap_cons, List.forall_mem_cons, ← ih has]
    constructor
    · intro happ
      have hlen := congrArg List.length happ
      rw [List.length_append, List.length_append] at hlen
      exact List.append_inj happ (by omega)
    · rintro ⟨hfg, hrest⟩
      rw [hfg, hrest]

theorem length_arguments_take_le (values : List CString) :
    (arguments (fun v => v.take bufSize) values).length ≤ (arguments id values).length := by
  rw [arguments, arguments, List.length_flatMap, List.length_flatMap]
  exact List.sum_le_sum fun v _ => Cut.length_onward_take_le isBlank bufSize v

theorem arguments_take_eq_iff :
    arguments (fun v => v.take bufSize) values = arguments id values ↔
      ∀ v ∈ values, v.length ≤ bufSize ∨ Cut.onward isBlank v = [] := by
  have hle : ∀ v ∈ values.reverse, (Cut.onward isBlank (v.take bufSize)).length ≤
      (Cut.onward isBlank (id v)).length := fun v _ => Cut.length_onward_take_le isBlank bufSize v
  have hcut := flatMap_eq_flatMap_iff hle
  simp only [List.mem_reverse, id, Cut.onward_take_eq_iff] at hcut
  exact hcut

theorem wholeValues_concat : WholeValues (values ++ [v]) ↔
    v.length ≤ bufSize ∧ ∀ u ∈ values, u.length ≤ bufSize ∨ Cut.onward isBlank u = [] := by
  constructor
  · rintro ⟨hlast, hbefore⟩
    rw [List.dropLast_concat] at hbefore
    exact ⟨hlast v List.getLast?_concat, hbefore⟩
  · rintro ⟨hlast, hbefore⟩
    refine ⟨fun u hu => ?_, ?_⟩
    · rw [List.getLast?_concat] at hu
      cases hu
      exact hlast
    · rwa [List.dropLast_concat]

/-- Cutting the values changes the text they leave unless they are whole. -/
theorem putIn_take_eq_iff : putIn (fun v => v.take bufSize) [] values = putIn id [] values ↔
    WholeValues values := by
  cases values using List.reverseRecOn with
  | nil => exact iff_of_true rfl ⟨(fun v hv => by cases hv), (fun v hv => by cases hv)⟩
  | append_singleton values v =>
    rw [wholeValues_concat, ← arguments_take_eq_iff, putIn_concat, putIn_concat, onward_putIn,
      onward_putIn, Cut.onward_nil, List.append_nil, List.append_nil, id]
    have hle := length_arguments_take_le values
    constructor
    · intro happ
      have hsum := congrArg List.length happ
      rw [List.length_append, List.length_append, List.length_take] at hsum
      obtain ⟨hv, hrest⟩ := List.append_inj happ (by rw [List.length_take]; omega)
      exact ⟨List.take_eq_self_iff _ |>.mp hv, hrest⟩
    · rintro ⟨hv, hrest⟩
      rw [List.take_of_length_le hv, hrest]

/-- A text that the code takes for none starts, when it is not empty, where a second word would. -/
theorem onward_putIn_of_take_nil (hne : values ≠ [])
    (hnil : putIn (fun v => v.take bufSize) [] values = []) :
    Cut.onward isBlank (putIn id [] values) = putIn id [] values := by
  obtain ⟨init, v, rfl⟩ := List.eq_nil_or_concat' values |>.resolve_left hne
  rw [putIn_concat] at hnil ⊢
  have hv : v = [] := by
    have htake := (List.append_eq_nil_iff.mp hnil).1
    exact (List.take_eq_nil_iff.mp htake).resolve_left (by decide)
  rw [hv, id, List.nil_append, Cut.onward_onward]

theorem Rounds.exists_leads (h : Rounds m used final cmd result) :
    ∃ values, Leads m used cmd values := by
  induction h with
  | done hd => exact ⟨[], .stop hd⟩
  | again hv hu _ ih =>
    obtain ⟨values, hl⟩ := ih
    exact ⟨_, .step hv hu hl⟩

theorem onward_before (p : UInt8 → Bool) (s : CString) : Cut.onward p (Cut.before p s) = [] :=
  Cut.onward_eq_nil_iff.mpr fun _ => Cut.before_separator

/-- For a command that fits the buffer, an expansion is the full text exactly when the values put in
are whole and do not vanish. -/
theorem expandAlias_eq_fullText_iff (hlen : command.length ≤ bufSize)
    (hw : Cut.before isBlank command ≠ []) :
    (expandAlias d.toAliases command).1 = d.fullText command ↔
      ∃ values, Leads d.find [] (Cut.before isBlank command) values ∧ WholeValues values ∧
        ¬ Vanishes d.find [] (Cut.before isBlank command) := by
  obtain ⟨final, hrounds, hexp⟩ := expandAlias_spec d.valid d.released command
  obtain ⟨values, hl⟩ := hrounds.exists_leads
  have hword := onward_before isBlank command
  have hsplit := Cut.before_append_onward isBlank command
  have hfinal := hrounds.eq_putIn hl
  have hfirst : Cut.before isBlank command ++ Cut.onward isBlank (Cut.before isBlank command) =
      Cut.before isBlank command := by rw [hword, List.append_nil]
  have hrest : Cut.onward isBlank command =
      Cut.onward isBlank (Cut.before isBlank command) ++ Cut.onward isBlank command := by
    rw [hword, List.nil_append]
  have hfull := (d.fullText_spec command).eq_putIn hl hfirst hrest
  have hvan := hl.vanishes_iff hword
  have hvalues : (∃ values, Leads d.find [] (Cut.before isBlank command) values ∧
      WholeValues values ∧ ¬ Vanishes d.find [] (Cut.before isBlank command)) ↔
      WholeValues values ∧ ¬ Vanishes d.find [] (Cut.before isBlank command) := by
    constructor
    · rintro ⟨values', hl', h⟩
      rwa [hl.unique hl']
    · exact fun h => ⟨values, hl, h⟩
  rw [hvalues, hexp, copyBack_eq, List.take_of_length_le hlen, hvan, hfull]
  by_cases hne : values = []
  · subst hne
    have hwhole : WholeValues [] := putIn_take_eq_iff.mp rfl
    rw [putIn_nil, hsplit, hfinal, putIn_nil, if_pos rfl]
    exact iff_of_true rfl ⟨hwhole, hw⟩
  · rw [putIn_word hword hne, ← putIn_take_eq_iff, ← hfinal]
    split
    · next hnil =>
      -- The command is copied back although a value was put in.
      refine iff_of_false (fun heq => hw ?_) ?_
      · nth_rewrite 1 [← hsplit] at heq
        have hvalues := List.append_cancel_right heq
        rw [hvalues, ← onward_putIn_of_take_nil hne (hfinal ▸ hnil), ← hvalues, hword]
      · rintro ⟨heq, hne'⟩
        exact hne' (heq.symm.trans hnil)
    · next hnil =>
      rw [List.append_cancel_right_eq]
      exact ⟨fun heq => ⟨heq, heq ▸ hnil⟩, fun h => h.1⟩

end Redshell
