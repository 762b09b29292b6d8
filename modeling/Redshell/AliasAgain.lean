import Redshell.AliasText

/-! The expansion of a text that was expanded before. -/
namespace Redshell

/-- The word in which a chain of values ends. -/
def lastWord (w : CString) (values : List CString) : CString :=
  (values.getLast?.map (Cut.before isBlank)).getD w

variable {d : Dictionary} {m : CString → Option CString} {used used' values : List CString}
  {w v command : CString}

theorem lastWord_cons (w v : CString) (values : List CString) :
    lastWord w (v :: values) = lastWord (Cut.before isBlank v) values := by
  rw [lastWord, lastWord, List.getLast?_cons]
  cases values.getLast? <;> rfl

theorem lastWord_append (w w' : CString) (values : List CString) {values' : List CString}
    (hne : values' ≠ []) : lastWord w (values ++ values') = lastWord w' values' := by
  rw [lastWord, lastWord, List.getLast?_append_of_ne_nil _ hne,
    List.getLast?_eq_some_getLast hne]
  rfl

/-! A chain that ends at a name in use has gone round. -/

/-- Names that are not met need not be in use. -/
theorem Leads.fewer (h : Leads m used w values) (hsub : ∀ k ∈ used', k ∈ used)
    (hlast : m (lastWord w values) = none ∨ lastWord w values ∈ used') :
    Leads m used' w values := by
  induction h generalizing used' with
  | stop _ => exact .stop hlast
  | @step used values w v hv hu _ ih =>
    rw [lastWord_cons] at hlast
    refine .step hv (fun hw => hu (hsub w hw)) (ih (fun k hk => ?_) ?_)
    · rcases List.mem_cons.mp hk with rfl | hk
      · exact List.mem_cons_self
      · exact List.mem_cons_of_mem _ (hsub k hk)
    · exact hlast.imp_right (List.mem_cons_of_mem _)

/-- From the alias that a chain ends at, the chain goes round to it again. -/
theorem Leads.round (h : Leads m used w values) (hm : m (lastWord w values) ≠ none)
    (hu : lastWord w values ∉ used) :
    ∃ front back, values = front ++ back ∧ back ≠ [] ∧ Leads m [] (lastWord w values) back := by
  induction h with
  | stop hd => exact absurd (hd.resolve_left hm) hu
  | @step used values w v hv hw hl ih =>
    rw [lastWord_cons] at hm hu ⊢
    by_cases heq : lastWord (Cut.before isBlank v) values = w
    · refine ⟨[], v :: values, rfl, List.cons_ne_nil v values, ?_⟩
      rw [heq]
      exact .step hv List.not_mem_nil
        (hl.fewer (fun k hk => List.mem_singleton.mp hk ▸ List.mem_cons_self)
          (.inr (List.mem_singleton.mpr heq)))
    · obtain ⟨front, back, rfl, hne, hback⟩ :=
        ih hm fun hmem => (List.mem_cons.mp hmem).elim heq hu
      exact ⟨v :: front, back, rfl, hne, hback⟩

theorem Leads.exists_name (h : Leads m used w values) (hv : v ∈ values) :
    ∃ name, m name = some v := by
  induction h with
  | stop _ => cases hv
  | step hv' _ _ ih =>
    rcases List.mem_cons.mp hv with rfl | hv
    · exact ⟨_, hv'⟩
    · exact ih hv

/-! What an expansion makes of a command. -/

theorem before_onward (p : UInt8 → Bool) (s : CString) : Cut.before p (Cut.onward p s) = [] := by
  cases h : Cut.onward p s with
  | nil => rfl
  | cons c t => exact Cut.before_cons_of_separator (Cut.onward_head h)

theorem arguments_concat (v : CString) (values : List CString) :
    arguments id (values ++ [v]) = Cut.onward isBlank v ++ arguments id values := by
  rw [arguments, List.reverse_concat, List.flatMap_cons]
  rfl

theorem putIn_eq (w : CString) (hne : values ≠ []) :
    putIn id [] values = lastWord w values ++ arguments id values := by
  obtain ⟨init, v, rfl⟩ := List.eq_nil_or_concat' values |>.resolve_left hne
  have hlast : lastWord w (init ++ [v]) = Cut.before isBlank v := by
    rw [lastWord, List.getLast?_concat]
    rfl
  rw [putIn_concat, onward_putIn, Cut.onward_nil, List.append_nil, hlast, arguments_concat,
    ← List.append_assoc, Cut.before_append_onward]
  rfl

theorem expandAlias_putIn (hl : Leads d.find [] (Cut.before isBlank command) values)
    (hshort : ∀ v ∈ values, v.length ≤ bufSize) (hlen : command.length ≤ bufSize) :
    (expandAlias d.toAliases command).1 =
      if putIn id [] values = [] then command
      else putIn id [] values ++ Cut.onward isBlank command := by
  obtain ⟨final, hrounds, hexp⟩ := expandAlias_spec d.valid d.released command
  have hwhole : WholeValues values :=
    ⟨fun v hv => hshort v (List.mem_of_getLast? hv), fun v hv =>
      .inl (hshort v (List.mem_of_mem_dropLast hv))⟩
  rw [hexp, copyBack_eq, List.take_of_length_le hlen, hrounds.eq_putIn hl,
    putIn_take_eq_iff.mpr hwhole]

theorem lastWord_plain (s : CString) (values : List CString) :
    ∀ c ∈ lastWord (Cut.before isBlank s) values, isBlank c = false := by
  intro c hc
  rw [lastWord] at hc
  cases hlast : values.getLast? with
  | none =>
    rw [hlast] at hc
    exact Cut.before_separator hc
  | some v =>
    rw [hlast] at hc
    exact Cut.before_separator hc

/-- The first word of what an expansion makes is the one that the chain of its values ends in. -/
theorem before_expandAlias (hl : Leads d.find [] (Cut.before isBlank command) values)
    (hshort : ∀ v ∈ values, v.length ≤ bufSize) (hlen : command.length ≤ bufSize)
    (hnil : putIn id [] values ≠ []) :
    Cut.before isBlank (expandAlias d.toAliases command).1 =
      lastWord (Cut.before isBlank command) values := by
  have hne : values ≠ [] := by
    rintro rfl
    exact hnil rfl
  rw [expandAlias_putIn hl hshort hlen, if_neg hnil, putIn_eq (Cut.before isBlank command) hne,
    List.append_assoc, ← onward_putIn, Cut.before_append_of_none (lastWord_plain command values),
    before_onward, List.append_nil]

theorem arguments_eq_nil_iff :
    arguments id values = [] ↔ ∀ v ∈ values, Cut.onward isBlank v = [] := by
  rw [arguments, List.flatMap_eq_nil_iff]
  exact ⟨fun h v hv => h v (List.mem_reverse.mpr hv), fun h v hv => h v (List.mem_reverse.mp hv)⟩

/-- Where the values of the aliases fit the buffer and the command and its expansion do, a second
expansion leaves the text alone exactly when no value that its first word leads to has arguments. -/
theorem expandAlias_again_iff (hvalues : ∀ k v, d.find k = some v → v.length ≤ bufSize)
    (hlen : command.length ≤ bufSize)
    (hfits : (expandAlias d.toAliases command).1.length ≤ bufSize) :
    (expandAlias d.toAliases (expandAlias d.toAliases command).1).1 =
        (expandAlias d.toAliases command).1 ↔
      ∃ values, Leads d.find [] (Cut.before isBlank (expandAlias d.toAliases command).1) values ∧
        ∀ v ∈ values, Cut.onward isBlank v = [] := by
  obtain ⟨final, hrounds, hexp⟩ := expandAlias_spec d.valid d.released command
  obtain ⟨values, hl⟩ := hrounds.exists_leads
  have hshort : ∀ {w : CString} {values : List CString}, Leads d.find [] w values →
      ∀ v ∈ values, v.length ≤ bufSize := fun hl v hv =>
        (hl.exists_name hv).elim fun k => hvalues k v
  have hunique : ∀ {values : List CString},
      Leads d.find [] (Cut.before isBlank (expandAlias d.toAliases command).1) values →
      ((∃ values, Leads d.find [] (Cut.before isBlank (expandAlias d.toAliases command).1) values ∧
        ∀ v ∈ values, Cut.onward isBlank v = []) ↔ arguments id values = []) := by
    intro values hl
    rw [arguments_eq_nil_iff]
    exact ⟨fun ⟨_, hl', h⟩ => hl.unique hl' ▸ h, fun h => ⟨values, hl, h⟩⟩
  by_cases hnil : putIn id [] values = []
  · -- What is put in is empty, and the command is copied back.
    have hsame : (expandAlias d.toAliases command).1 = command := by
      rw [expandAlias_putIn hl (hshort hl) hlen, if_pos hnil]
    have hargs := onward_putIn id [] values
    rw [hnil, Cut.onward_nil, List.append_nil] at hargs
    rw [hsame] at hunique ⊢
    exact iff_of_true hsame ((hunique hl).mpr hargs.symm)
  · have hbefore := before_expandAlias hl (hshort hl) hlen hnil
    have hsplit := Cut.before_append_onward isBlank (expandAlias d.toAliases command).1
    generalize (expandAlias d.toAliases command).1 = text at hfits hunique hbefore hsplit ⊢
    by_cases hm : d.find (Cut.before isBlank text) = none
    · have hstop : Leads d.find [] (Cut.before isBlank text) [] := .stop (.inl hm)
      refine iff_of_true ?_ ((hunique hstop).mpr rfl)
      rw [expandAlias_putIn hstop (hshort hstop) hfits, if_pos (putIn_nil id [])]
    · -- The chain goes round from the word that it ended in.
      rw [hbefore] at hm
      obtain ⟨front, back, rfl, hne, hround⟩ := hl.round hm List.not_mem_nil
      rw [lastWord_append _ (Cut.before isBlank text) front hne] at hbefore hround
      rw [← hbefore] at hround
      rw [hunique hround, expandAlias_putIn hround (hshort hround) hfits]
      split
      · next hempty =>
        have hargs := onward_putIn id [] back
        rw [hempty, Cut.onward_nil, List.append_nil] at hargs
        exact iff_of_true rfl hargs.symm
      · rw [putIn_eq (Cut.before isBlank text) hne, ← hbefore, List.append_assoc]
        nth_rewrite 3 [← hsplit]
        rw [List.append_cancel_left_eq]
        exact List.append_left_eq_self

/-- The dictionary in which `ls` is `ls -l`. -/
def longListing : Dictionary := Dictionary.empty.addAlias (bytes "ls") (bytes "ls -l")

theorem expandAlias_again_iff_ls :
    (expandAlias longListing.toAliases (expandAlias longListing.toAliases (bytes "ls /")).1).1 =
        (expandAlias longListing.toAliases (bytes "ls /")).1 ↔
      ∃ values, Leads longListing.find []
          (Cut.before isBlank (expandAlias longListing.toAliases (bytes "ls /")).1) values ∧
        ∀ v ∈ values, Cut.onward isBlank v = [] := by
  refine expandAlias_again_iff (fun k v hv => ?_) (by decide) (by decide +kernel)
  rw [longListing, Dictionary.find_single] at hv
  split at hv
  · cases hv
    decide
  · cases hv

end Redshell
