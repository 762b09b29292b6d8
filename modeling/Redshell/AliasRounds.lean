import Redshell.Helper

/-! The rounds of the loop of `expandAlias`: that they end, and what they write to the buffers. -/
namespace Redshell

/-- What `tmp` holds after each write of a round. -/
def roundWrites (final aux : CString) : List CString :=
  let tmp := strncpy aux bufSize
  match strstr final isBlank with
  | some space => [tmp, strcat tmp space]
  | none => [tmp]

/-- The text that a round leaves in `final`. -/
def roundFinal (final aux : CString) : CString :=
  let tmp := strncpy aux bufSize
  match strstr final isBlank with
  | some space => strcat tmp space
  | none => tmp

/-- What `final` holds after the write that copies the rest of the command back, if there is one. -/
def copyBackWrites (final command : CString) : List CString :=
  if final.length = 0 then [strncpy command bufSize]
  else
    match strstr command isBlank with
    | some ptr => [strcat final ptr]
    | none => []

/-- A round of the loop: the name that is looked up, its value, and the writes to `tmp`. -/
structure Round where
  name : CString
  value : CString
  writes : List CString

/-- The loop of `expandAlias` from a text and a name, with no bound on the number of its rounds. -/
inductive LoopRuns : Aliases → CString → CString → List Round → Aliases → CString → Prop
  | stop {st st' : Aliases} {final cmd : CString} (hget : getAlias st cmd = (none, st')) :
      LoopRuns st final cmd [] st' final
  | round {st st₁ st' : Aliases} {final cmd aux out : CString} {rounds : List Round}
      (hget : getAlias st cmd = (some aux, st₁))
      (hrest : LoopRuns st₁ (roundFinal final aux) (firstWord aux) rounds st' out) :
      LoopRuns st final cmd (⟨cmd, aux, roundWrites final aux⟩ :: rounds) st' out

/-- Every text that the expansion of the command writes to its buffers has room there. -/
def ExpansionFits (st : Aliases) (command : CString) : Prop :=
  ∃ rounds st' final, LoopRuns st [] (firstWord command) rounds st' final ∧
    ∀ text ∈ rounds.flatMap (·.writes) ++ copyBackWrites final command, text.length ≤ bufSize

/-- The values that a name leads to, each found under the first word of the one before. -/
inductive Leads (m : CString → Option CString) : List CString → CString → List CString → Prop
  | stop {used : List CString} {w : CString} (h : m w = none ∨ w ∈ used) : Leads m used w []
  | step {used values : List CString} {w v : CString} (hv : m w = some v) (hu : w ∉ used)
      (h : Leads m (w :: used) (Cut.before isBlank v) values) : Leads m used w (v :: values)

/-- The table with other `in_use` flags. -/
def Aliases.withFlags (st : Aliases) (inUse : Nat → Int) : Aliases :=
  { st with heap := fun addr => { st.heap addr with inUse := inUse addr } }

variable {st st' st'' : Aliases} {final cmd command out out' w : CString}
  {rounds rounds' : List Round} {used values values' : List CString}
  {m : CString → Option CString} {n carried rest : Nat}

theorem roundFinal_eq (final aux : CString) :
    roundFinal final aux = aux.take bufSize ++ Cut.onward isBlank final := by
  unfold roundFinal
  rw [← strstr_getD]
  cases strstr final isBlank <;> simp [strcat, strncpy]

/-- The code does the same every time. -/
theorem LoopRuns.unique (h : LoopRuns st final cmd rounds st' out)
    (h' : LoopRuns st final cmd rounds' st'' out') :
    rounds = rounds' ∧ st' = st'' ∧ out = out' := by
  induction h generalizing rounds' with
  | stop hget =>
    cases h' with
    | stop hget' =>
      cases hget.symm.trans hget'
      exact ⟨rfl, rfl, rfl⟩
    | round hget' => cases hget.symm.trans hget'
  | round hget _ ih =>
    cases h' with
    | stop hget' => cases hget.symm.trans hget'
    | round hget' hrest =>
      cases hget.symm.trans hget'
      obtain ⟨rfl, rfl, rfl⟩ := ih hrest
      exact ⟨rfl, rfl, rfl⟩

/-- A bound above the number of rounds does not show. -/
theorem LoopRuns.expandLoop (h : LoopRuns st final cmd rounds st' out) (hn : rounds.length < n) :
    expandLoop n st final cmd = (out, st') := by
  induction h generalizing n with
  | stop hget =>
    obtain ⟨n, rfl⟩ := Nat.exists_eq_add_one_of_ne_zero (Nat.ne_zero_of_lt hn)
    rw [Redshell.expandLoop, hget]
  | @round _ _ _ final _ aux _ _ hget _ ih =>
    obtain ⟨n, rfl⟩ := Nat.exists_eq_add_one_of_ne_zero (Nat.ne_zero_of_lt hn)
    have hrest := ih (Nat.lt_of_succ_lt_succ hn)
    rw [Redshell.expandLoop, hget]
    dsimp only
    rw [expandLoop_tmp, ← hrest, roundFinal_eq, strncpy]

/-- With the names in use known, the loop ends after a round for each other name at most, and no
name comes twice. -/
theorem exists_loopRuns (h : st.Valid) (hm : st.Marked used) (final cmd : CString) :
    ∃ rounds st' out, LoopRuns st final cmd rounds st' out ∧
      rounds.length ≤ (unexpanded st used).length ∧
      (rounds.map (·.name)).Nodup ∧ ∀ r ∈ rounds, r.name ∉ used := by
  induction hlen : (unexpanded st used).length using Nat.strong_induction_on
    generalizing st used final cmd with
  | _ n ih =>
    subst hlen
    obtain ⟨v, hv, hu, hget, hs, hmark⟩ | ⟨_, hget⟩ := getAlias_spec h hm cmd
    · have hlt := unexpanded_cons_lt h hv hu
      have hsame : unexpanded (getAlias st cmd).2 (cmd :: used) = unexpanded st (cmd :: used) := by
        rw [unexpanded, hs.table_eq, ← unexpanded]
      obtain ⟨rounds, st', out, hruns, hlen, hnodup, hfresh⟩ :=
        ih _ (hsame ▸ hlt) (hs.valid h) hmark (roundFinal final v) (firstWord v) rfl
      refine ⟨⟨cmd, v, roundWrites final v⟩ :: rounds, st', out, .round ?_ hruns, ?_, ?_, ?_⟩
      · exact Prod.ext hget rfl
      · rw [hsame] at hlen
        rw [List.length_cons]
        omega
      · rw [List.map_cons, List.nodup_cons]
        refine ⟨?_, hnodup⟩
        intro hmem
        obtain ⟨r, hr, hname⟩ := List.mem_map.mp hmem
        exact hfresh r hr (hname ▸ List.mem_cons_self)
      · intro r hr
        rcases List.mem_cons.mp hr with rfl | hr
        · exact hu
        · exact fun hmem => hfresh r hr (List.mem_cons_of_mem _ hmem)
    · exact ⟨[], st, final, .stop hget, Nat.zero_le _, List.nodup_nil, by simp⟩

/-- Whatever the flags, the names in use are those of some entries. -/
theorem exists_marked (h : st.Valid) (inUse : Nat → Int) :
    (st.withFlags inUse).Valid ∧ ∃ used, (st.withFlags inUse).Marked used := by
  refine ⟨⟨h.wellFormed, h.distinct, h.allocated⟩,
    Chain.keys (st.table.contents.filter fun e => inUse e.value ≠ 0), ?_⟩
  intro e he
  change inUse e.value = 0 ↔ _
  constructor
  · intro hzero hmem
    obtain ⟨e', he', hkey⟩ := List.mem_map.mp hmem
    obtain ⟨hcontents, hflag⟩ := List.mem_filter.mp he'
    obtain rfl := List.inj_on_of_nodup_map h.wellFormed.nodup hcontents he hkey
    simp [hzero] at hflag
  · intro hnot
    by_contra hflag
    exact hnot (List.mem_map_of_mem (List.mem_filter.mpr ⟨he, by simpa using hflag⟩))

theorem unexpanded_length_le (st : Aliases) (used : List CString) :
    (unexpanded st used).length ≤ st.table.contents.length := by
  have hle := List.length_filter_le (fun k => decide (k ∉ used)) (Chain.keys st.table.contents)
  rwa [Chain.keys, List.length_map] at hle

/-- For every table and whatever its flags, the loop stops after at most as many rounds as there are
aliases and substitutes none of them twice, and the expansion is what it leaves. -/
theorem expandAlias_ends (d : Dictionary) (inUse : Nat → Int) (command : CString) :
    ∃ rounds st' final,
      LoopRuns (d.withFlags inUse) [] (firstWord command) rounds st' final ∧
      rounds.length ≤ d.table.contents.length ∧
      (rounds.map (·.name)).Nodup ∧
      expandAlias (d.withFlags inUse) command = (copyBack final command, releaseAliases st') := by
  obtain ⟨hvalid, used, hmarked⟩ := exists_marked d.valid inUse
  obtain ⟨rounds, st', final, hruns, hlen, hnodup, _⟩ :=
    exists_loopRuns hvalid hmarked [] (firstWord command)
  have hle : rounds.length ≤ d.table.contents.length := hlen.trans (unexpanded_length_le _ used)
  have hcount : (hashTableNumEntries (d.withFlags inUse).table).toNat =
      d.table.contents.length := by
    change d.table.entries.toNat = _
    rw [d.valid.wellFormed.count, Int.toNat_natCast]
  refine ⟨rounds, st', final, hruns, hle, hnodup, ?_⟩
  rw [expandAlias, hcount, hruns.expandLoop (Nat.lt_succ_of_le hle)]

/-! The lengths of the texts. -/

/-- The texts of a chain of values fit the buffer, when so many bytes are carried from the values
before and so many are left of the command. -/
def Fits (rest : Nat) : Nat → List CString → Prop
  | _, [] => True
  | carried, [v] => (v.take bufSize).length + carried + rest ≤ bufSize
  | carried, v :: values => (v.take bufSize).length + carried ≤ bufSize ∧
      Fits rest (carried + (Cut.onward isBlank (v.take bufSize)).length) values

theorem Leads.unique (h : Leads m used w values) (h' : Leads m used w values') :
    values = values' := by
  induction h generalizing values' with
  | stop hd =>
    cases h' with
    | stop => rfl
    | step hv hu => simp_all
  | step hv hu _ ih =>
    cases h' with
    | stop hd => simp_all
    | step hv' hu' h' =>
      obtain rfl := Option.some.inj (hv.symm.trans hv')
      rw [ih h']

/-- The values of the rounds are those that the name leads to. -/
theorem LoopRuns.leads (h : LoopRuns st final cmd rounds st' out) (hst : st.Valid)
    (hm : st.Marked used) : Leads st.find used cmd (rounds.map (·.value)) := by
  induction h generalizing used with
  | @stop st st' final cmd hget =>
    obtain ⟨v, _, _, hsome, _⟩ | ⟨hstop, _⟩ := getAlias_spec hst hm cmd
    · rw [hget] at hsome
      cases hsome
    · exact .stop hstop
  | @round st st₁ st' final cmd aux out rounds hget hrest ih =>
    obtain ⟨v, hv, hu, hsome, hs, hmark⟩ | ⟨_, hnone⟩ := getAlias_spec hst hm cmd
    · rw [hget] at hsome hs hmark
      cases hsome
      have hleads := ih (hs.valid hst) hmark
      rw [hs.find_eq, firstWord_eq] at hleads
      exact .step hv hu hleads
    · cases hget.symm.trans hnone

theorem roundWrites_fit_iff (final aux : CString) :
    (∀ text ∈ roundWrites final aux, text.length ≤ bufSize) ↔
      (aux.take bufSize).length + (Cut.onward isBlank final).length ≤ bufSize := by
  unfold roundWrites
  rw [← strstr_getD]
  cases strstr final isBlank <;> simp [strcat, strncpy]

theorem length_onward_roundFinal (final aux : CString) :
    (Cut.onward isBlank (roundFinal final aux)).length =
      (Cut.onward isBlank final).length + (Cut.onward isBlank (aux.take bufSize)).length := by
  rw [roundFinal_eq, Cut.onward_append_onward, List.length_append, Nat.add_comm]

/-- When the writes fit, so does the text that the loop leaves. -/
theorem LoopRuns.length_le (h : LoopRuns st final cmd rounds st' out)
    (hfinal : final.length ≤ bufSize)
    (hwrites : ∀ r ∈ rounds, ∀ text ∈ r.writes, text.length ≤ bufSize) :
    out.length ≤ bufSize := by
  induction h with
  | stop hget => exact hfinal
  | @round st st₁ st' final cmd aux out rounds hget hrest ih =>
    obtain ⟨hround, hwrites⟩ := List.forall_mem_cons.mp hwrites
    apply ih _ hwrites
    rw [roundFinal_eq, List.length_append]
    exact (roundWrites_fit_iff final aux).mp hround

/-- The writes of the loop and the text left with so many bytes after it fit together exactly when
the values do. -/
theorem LoopRuns.fit_iff (h : LoopRuns st final cmd rounds st' out) (hne : rounds ≠ []) :
    ((∀ r ∈ rounds, ∀ text ∈ r.writes, text.length ≤ bufSize) ∧ out.length + rest ≤ bufSize) ↔
      Fits rest (Cut.onward isBlank final).length (rounds.map (·.value)) := by
  induction h with
  | stop hget => exact absurd rfl hne
  | @round st st₁ st' final cmd aux out rounds hget hrest ih =>
    rw [List.forall_mem_cons, roundWrites_fit_iff, List.map_cons, and_assoc]
    cases rounds with
    | nil =>
      cases hrest
      rw [roundFinal_eq, List.length_append, List.map_nil, Fits]
      constructor
      · rintro ⟨_, _, hout⟩
        exact hout
      · intro hout
        have hround : (aux.take bufSize).length + (Cut.onward isBlank final).length ≤ bufSize :=
          (Nat.le_add_right _ rest).trans hout
        exact ⟨hround, fun r hr => absurd hr List.not_mem_nil, hout⟩
    | cons r rounds =>
      rw [ih (List.cons_ne_nil r rounds), length_onward_roundFinal]
      rfl

theorem copyBackWrites_fit_iff (hcommand : command.length ≤ bufSize)
    (hfinal : final.length ≤ bufSize) :
    (∀ text ∈ copyBackWrites final command, text.length ≤ bufSize) ↔
      final.length + (Cut.onward isBlank command).length ≤ bufSize := by
  have honward := congrArg List.length (Cut.before_append_onward isBlank command)
  rw [List.length_append] at honward
  unfold copyBackWrites
  split
  · simp only [List.mem_singleton, forall_eq, strncpy, List.length_take]
    omega
  · rw [← strstr_getD] at honward ⊢
    cases strstr command isBlank <;> simp [strcat, hfinal]

/-- All writes of an expansion fit the buffers exactly when the values of its rounds do. -/
theorem LoopRuns.writes_fit_iff (h : LoopRuns st [] cmd rounds st' final)
    (hcommand : command.length ≤ bufSize) :
    (∀ text ∈ rounds.flatMap (·.writes) ++ copyBackWrites final command, text.length ≤ bufSize) ↔
      Fits (Cut.onward isBlank command).length 0 (rounds.map (·.value)) := by
  simp only [List.forall_mem_append, List.forall_mem_flatMap]
  cases rounds with
  | nil =>
    cases h
    have hfits : _ → ∀ text ∈ copyBackWrites [] command, text.length ≤ bufSize :=
      (copyBackWrites_fit_iff hcommand (Nat.zero_le _)).mpr
    refine iff_of_true ⟨fun r hr => absurd hr List.not_mem_nil, hfits ?_⟩ trivial
    have honward := congrArg List.length (Cut.before_append_onward isBlank command)
    rw [List.length_append] at honward
    rw [List.length_nil]
    omega
  | cons r rounds =>
    refine Iff.trans ?_ (h.fit_iff (List.cons_ne_nil r rounds))
    refine and_congr_right fun hwrites => ?_
    exact copyBackWrites_fit_iff hcommand (h.length_le (Nat.zero_le _) hwrites)

/-- For a dictionary the values of the rounds are the ones that the first word leads to. -/
theorem LoopRuns.values_fit_iff {d : Dictionary}
    (h : LoopRuns d.toAliases [] (firstWord command) rounds st' final)
    (hcommand : command.length ≤ bufSize) :
    (∀ text ∈ rounds.flatMap (·.writes) ++ copyBackWrites final command, text.length ≤ bufSize) ↔
      ∃ values, Leads d.find [] (Cut.before isBlank command) values ∧
        Fits (Cut.onward isBlank command).length 0 values := by
  have hleads := h.leads d.valid d.released.marked
  rw [firstWord_eq] at hleads
  rw [h.writes_fit_iff hcommand]
  constructor
  · intro hfits
    exact ⟨_, hleads, hfits⟩
  · rintro ⟨values, hvalues, hfits⟩
    rwa [hleads.unique hvalues]

theorem expansionFits_iff {d : Dictionary} (hcommand : command.length ≤ bufSize) :
    ExpansionFits d.toAliases command ↔
      ∃ values, Leads d.find [] (Cut.before isBlank command) values ∧
        Fits (Cut.onward isBlank command).length 0 values := by
  constructor
  · rintro ⟨rounds, st', final, hruns, hfits⟩
    exact (hruns.values_fit_iff hcommand).mp hfits
  · intro hfits
    obtain ⟨rounds, st', final, hruns, _⟩ :=
      exists_loopRuns d.valid d.released.marked [] (firstWord command)
    exact ⟨rounds, st', final, hruns, (hruns.values_fit_iff hcommand).mpr hfits⟩

/-- Every text written to `final` and `tmp` fits exactly when the values substituted, each with the
arguments carried over from those before, and the last one with those of the command too, do. -/
theorem expandAlias_fits_iff (d : Dictionary) (command : CString)
    (hcommand : command.length ≤ bufSize) :
    ∃ rounds st' final,
      LoopRuns d.toAliases [] (firstWord command) rounds st' final ∧
      expandAlias d.toAliases command = (copyBack final command, releaseAliases st') ∧
      ((∀ text ∈ rounds.flatMap (·.writes) ++ copyBackWrites final command,
          text.length ≤ bufSize) ↔
        ∃ values, Leads d.find [] (Cut.before isBlank command) values ∧
          Fits (Cut.onward isBlank command).length 0 values) := by
  obtain ⟨rounds, st', final, hruns, hlen, _⟩ :=
    exists_loopRuns d.valid d.released.marked [] (firstWord command)
  have hlt : rounds.length < (hashTableNumEntries d.table).toNat + 1 := by
    change _ < d.table.entries.toNat + 1
    rw [d.valid.wellFormed.count, Int.toNat_natCast]
    exact Nat.lt_succ_of_le (hlen.trans (unexpanded_length_le _ _))
  refine ⟨rounds, st', final, hruns, ?_, hruns.values_fit_iff hcommand⟩
  rw [expandAlias, hruns.expandLoop hlt]

/-- An alias with an argument, used with another one. -/
theorem expandAlias_fits_iff_ls :
    ∃ rounds st' final,
      LoopRuns (Dictionary.empty.addAlias (bytes "l") (bytes "ls -l")).toAliases []
        (firstWord (bytes "l src")) rounds st' final ∧
      expandAlias (Dictionary.empty.addAlias (bytes "l") (bytes "ls -l")).toAliases
        (bytes "l src") = (copyBack final (bytes "l src"), releaseAliases st') ∧
      ((∀ text ∈ rounds.flatMap (·.writes) ++ copyBackWrites final (bytes "l src"),
          text.length ≤ bufSize) ↔
        ∃ values, Leads (Dictionary.empty.addAlias (bytes "l") (bytes "ls -l")).find []
            (Cut.before isBlank (bytes "l src")) values ∧
          Fits (Cut.onward isBlank (bytes "l src")).length 0 values) :=
  expandAlias_fits_iff _ _ (by decide)

/-- An alias with a value of 1000 bytes. -/
def longAlias : Dictionary := Dictionary.empty.addAlias (bytes "a") (List.replicate 1000 120)

/-- The alias with an argument of 30 bytes. -/
def longCommand : CString := bytes "a " ++ List.replicate 30 121

/-- The value and the argument do not fit together. -/
theorem longCommand_not_fits :
    ¬ ∃ values, Leads longAlias.find [] (Cut.before isBlank longCommand) values ∧
      Fits (Cut.onward isBlank longCommand).length 0 values := by
  rintro ⟨values, hleads, hfits⟩
  have hname : Cut.before isBlank longCommand = bytes "a" := by decide
  rw [hname] at hleads
  have hblank : ∀ a ∈ List.replicate 1000 (120 : UInt8), isBlank a = false := by
    intro a ha
    rw [List.eq_of_mem_replicate ha]
    rfl
  have hvalues : Leads longAlias.find [] (bytes "a") [List.replicate 1000 120] := by
    refine .step ?_ List.not_mem_nil (.stop (.inl ?_))
    · rw [longAlias, Dictionary.find_single, if_pos rfl]
    · rw [longAlias, Dictionary.find_single, Cut.before_of_none hblank, if_neg (by decide)]
  rw [hleads.unique hvalues, Fits, List.length_take, List.length_replicate] at hfits
  have honward : (Cut.onward isBlank longCommand).length = 31 := by decide
  rw [honward] at hfits
  exact absurd hfits (by decide)

/-- A value of 1000 bytes and an argument of 30 do not fit together. -/
theorem expandAlias_overflows :
    ¬ ∀ (d : Dictionary) (command : CString), command.length ≤ bufSize →
      ∀ rounds st' final, LoopRuns d.toAliases [] (firstWord command) rounds st' final →
      ∀ text ∈ rounds.flatMap (·.writes) ++ copyBackWrites final command,
        text.length ≤ bufSize := by
  intro hall
  have hcommand : longCommand.length ≤ bufSize := by decide
  obtain ⟨rounds, st', final, hruns, _⟩ :=
    exists_loopRuns longAlias.valid longAlias.released.marked [] (firstWord longCommand)
  have hfits := hall longAlias longCommand hcommand rounds st' final hruns
  exact longCommand_not_fits ((hruns.values_fit_iff hcommand).mp hfits)

end Redshell
