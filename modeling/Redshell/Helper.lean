import Redshell.Alias

/-! Alias expansion of helper.c, and the substitution it computes. -/
namespace Redshell

/-- The word copied into `cmd`: the bytes of `aux` up to its first space. -/
def firstWord (aux : CString) : CString :=
  let ptr := (strstr aux isBlank).getD []
  strncpy aux (aux.length - ptr.length)

/-- The loop of `expandAlias`, for at most so many rounds. -/
def expandLoop : Nat → Aliases → CString → CString → CString × Aliases
  | 0, st, final, _ => (final, st)
  | n + 1, st, final, cmd =>
    match getAlias st cmd with
    | (none, st) => (final, st)
    | (some aux, st) =>
      let tmp := strncpy aux bufSize
      match strstr final isBlank with
      | some space => expandLoop n st (strcat tmp space) (firstWord aux)
      | none => expandLoop n st tmp (firstWord aux)

/-- The text copied back after the loop: the rest of the command, or all of it. -/
def copyBack (final command : CString) : CString :=
  if final.length = 0 then strncpy command bufSize
  else
    match strstr command isBlank with
    | some ptr => strcat final ptr
    | none => final

/-- One round more than there are aliases always ends the loop. -/
def expandAlias (st : Aliases) (command : CString) : CString × Aliases :=
  let expanded := expandLoop ((hashTableNumEntries st.table).toNat + 1) st [] (firstWord command)
  (copyBack expanded.1 command, releaseAliases expanded.2)

variable {st st' : Aliases} {m : CString → Option CString} {used : List CString}
  {w r v final cmd out out' result command : CString}

theorem firstWord_eq (aux : CString) : firstWord aux = Cut.before isBlank aux := by
  unfold firstWord strncpy
  rw [strstr_getD]
  exact Cut.take_sub_onward isBlank aux

theorem expandLoop_tmp (final tmp : CString) (n : Nat) (st : Aliases) (cmd : CString) :
    (match strstr final isBlank with
      | some space => expandLoop n st (strcat tmp space) cmd
      | none => expandLoop n st tmp cmd) =
      expandLoop n st (tmp ++ Cut.onward isBlank final) cmd := by
  rw [← strstr_getD]
  cases strstr final isBlank <;> simp [strcat]

theorem copyBack_eq (final command : CString) :
    copyBack final command =
      if final = [] then command.take bufSize else final ++ Cut.onward isBlank command := by
  unfold copyBack
  rw [← strstr_getD]
  simp only [List.length_eq_zero_iff]
  split
  · rfl
  · cases strstr command isBlank <;> simp [strcat]

/-! The rounds of the loop as a relation over the map alone. -/

/-- The rounds from `final` and `cmd` on, with the names in `used` already expanded. -/
inductive Rounds (m : CString → Option CString) :
    List CString → CString → CString → CString → Prop
  | done {used : List CString} {final cmd : CString} (h : m cmd = none ∨ cmd ∈ used) :
      Rounds m used final cmd final
  | again {used : List CString} {final cmd v result : CString} (hv : m cmd = some v)
      (hu : cmd ∉ used)
      (h : Rounds m (cmd :: used) (strncpy v bufSize ++ Cut.onward isBlank final)
        (Cut.before isBlank v) result) :
      Rounds m used final cmd result

theorem Rounds.unique (h : Rounds m used final cmd out) (h' : Rounds m used final cmd out') :
    out = out' := by
  induction h with
  | done hd =>
    cases h' with
    | done => rfl
    | again hv hu => simp_all
  | again hv hu _ ih =>
    cases h' with
    | done hd => simp_all
    | again hv' hu' h' =>
      obtain rfl := Option.some.inj (hv.symm.trans hv')
      exact ih h'

/-- The names of the dictionary not yet expanded. -/
def unexpanded (st : Aliases) (used : List CString) : List CString :=
  (Chain.keys st.table.contents).filter (· ∉ used)

theorem unexpanded_cons_lt (h : st.Valid) (hv : st.find cmd = some v) (hu : cmd ∉ used) :
    (unexpanded st (cmd :: used)).length < (unexpanded st used).length := by
  have hk : cmd ∈ Chain.keys st.table.contents := by
    by_contra hk
    rw [(Aliases.find_eq_none_iff h).mpr hk] at hv
    cases hv
  have hsub : unexpanded st (cmd :: used) = (unexpanded st used).filter (· ≠ cmd) := by
    simp only [unexpanded, List.filter_filter]
    congr 1
    funext k
    by_cases hkc : k = cmd <;> simp [hkc]
  rw [hsub]
  apply List.length_filter_lt_length_iff_exists.mpr
  exact ⟨cmd, by simp [unexpanded, hk, hu], by simp⟩

/-- With a round for each unexpanded name, the loop runs the rounds to their end. -/
theorem expandLoop_spec (n : Nat) (h : st.Valid) (hm : st.Marked used)
    (hn : (unexpanded st used).length < n) (final cmd : CString) :
    Rounds st.find used final cmd (expandLoop n st final cmd).1 ∧
      st.SameMap (expandLoop n st final cmd).2 := by
  induction n generalizing st used final cmd with
  | zero => omega
  | succ n ih =>
    obtain ⟨v, hv, hu, hget, hs, hmark⟩ | ⟨hstop, hget⟩ := getAlias_spec h hm cmd
    · have hstep : expandLoop (n + 1) st final cmd =
          expandLoop n (getAlias st cmd).2 (strncpy v bufSize ++ Cut.onward isBlank final)
            (Cut.before isBlank v) := by
        rw [← expandLoop_tmp, ← firstWord_eq]
        simp only [expandLoop]
        generalize hg : getAlias st cmd = g at hget
        obtain ⟨g1, g2⟩ := g
        simp only at hget
        simp only [hget]
      have hlt := unexpanded_cons_lt h hv hu
      have hn' : (unexpanded (getAlias st cmd).2 (cmd :: used)).length < n := by
        rw [unexpanded, hs.table_eq, ← unexpanded]
        omega
      obtain ⟨hr, hs'⟩ := ih (hs.valid h) hmark hn'
        (strncpy v bufSize ++ Cut.onward isBlank final) (Cut.before isBlank v)
      rw [hstep]
      rw [hs.find_eq] at hr
      exact ⟨.again hv hu hr, hs.trans hs'⟩
    · have hstep : expandLoop (n + 1) st final cmd = (final, st) := by
        simp [expandLoop, hget]
      rw [hstep]
      exact ⟨.done hstop, .refl st⟩

/-- An expansion runs the rounds from an empty text and leaves the dictionary as it was. -/
theorem expandAlias_spec (h : st.Valid) (hr : st.Released) (command : CString) :
    ∃ final, Rounds st.find [] [] (Cut.before isBlank command) final ∧
      expandAlias st command = (copyBack final command, st) := by
  have hn : (unexpanded st []).length < (hashTableNumEntries st.table).toNat + 1 := by
    have hle := List.length_filter_le (fun k => decide (k ∉ ([] : List CString)))
      (Chain.keys st.table.contents)
    have hcount := h.wellFormed.count
    rw [Chain.keys, List.length_map] at hle
    simp only [hashTableNumEntries, unexpanded, Chain.keys] at *
    omega
  obtain ⟨hrounds, hs⟩ := expandLoop_spec _ h hr.marked hn [] (Cut.before isBlank command)
  obtain ⟨hs', hr'⟩ := releaseAliases_spec (hs.valid h).wellFormed
  refine ⟨_, hrounds, ?_⟩
  rw [expandAlias, firstWord_eq, (hs.trans hs').eq_of_released hr hr']

/-! Substitution, as a reader of an alias table understands it. -/

/-- Substituting the first word `w` of `w ++ r` as long as it names an alias not yet used. -/
inductive Substitutes (m : CString → Option CString) :
    List CString → CString → CString → CString → Prop
  | stop {used : List CString} {w r : CString} (h : m w = none ∨ w ∈ used) :
      Substitutes m used w r (w ++ r)
  | step {used : List CString} {w r v out : CString} (hv : m w = some v) (hu : w ∉ used)
      (h : Substitutes m (w :: used) (Cut.before isBlank v) (Cut.onward isBlank v ++ r) out) :
      Substitutes m used w r out

/-- Substitution by a table, for at most so many names. -/
def substitute (m : CString → Option CString) : Nat → List CString → CString → CString → CString
  | 0, _, w, r => w ++ r
  | n + 1, used, w, r =>
    match m w with
    | none => w ++ r
    | some v =>
      if w ∈ used then w ++ r
      else substitute m n (w :: used) (Cut.before isBlank v) (Cut.onward isBlank v ++ r)

/-- The values substituted from `w` on are single words and the last of them is empty. -/
inductive Vanishes (m : CString → Option CString) : List CString → CString → Prop
  | empty {used : List CString} (h : m [] = none ∨ [] ∈ used) : Vanishes m used []
  | step {used : List CString} {w v : CString} (hv : m w = some v) (hu : w ∉ used)
      (hb : Cut.onward isBlank v = []) (h : Vanishes m (w :: used) v) : Vanishes m used w

theorem Substitutes.unique (h : Substitutes m used w r out) (h' : Substitutes m used w r out') :
    out = out' := by
  induction h with
  | stop hd =>
    cases h' with
    | stop => rfl
    | step hv hu => simp_all
  | step hv hu _ ih =>
    cases h' with
    | stop hd => simp_all
    | step hv' hu' h' =>
      obtain rfl := Option.some.inj (hv.symm.trans hv')
      exact ih h'

/-- The accumulator is the substituted text with the command's own arguments kept aside. -/
theorem Rounds.substitutes (h : Rounds m used final cmd result)
    (hfit : ∀ k v, m k = some v → v.length ≤ bufSize)
    (hfinal : final = cmd ++ Cut.onward isBlank final) (r : CString) :
    Substitutes m used cmd (Cut.onward isBlank final ++ r) (result ++ r) := by
  induction h with
  | done hd =>
    rw [hfinal, List.append_assoc, ← hfinal]
    exact .stop hd
  | @again used final cmd v result hv hu _ ih =>
    rw [strncpy_of_le (hfit cmd v hv)] at ih
    have hcut := Cut.onward_append_onward isBlank v final
    have hfinal' : v ++ Cut.onward isBlank final =
        Cut.before isBlank v ++ Cut.onward isBlank (v ++ Cut.onward isBlank final) := by
      rw [hcut, ← List.append_assoc, Cut.before_append_onward]
    have hsub := ih hfinal'
    rw [hcut, List.append_assoc] at hsub
    exact .step hv hu hsub

/-- The accumulator ends empty exactly when nothing but empty text was substituted. -/
theorem Rounds.eq_nil_iff (h : Rounds m used final cmd result)
    (hfit : ∀ k v, m k = some v → v.length ≤ bufSize)
    (hfinal : final = cmd ++ Cut.onward isBlank final) :
    result = [] ↔ Cut.onward isBlank final = [] ∧ Vanishes m used cmd := by
  induction h with
  | @done used final cmd hd =>
    constructor
    · rintro rfl
      have hc : cmd = [] := by simpa using hfinal.symm
      subst hc
      exact ⟨rfl, .empty hd⟩
    · rintro ⟨hf, hvan⟩
      cases hvan with
      | empty => simpa [hf] using hfinal
      | step hv hu => simp_all
  | @again used final cmd v result hv hu _ ih =>
    rw [strncpy_of_le (hfit cmd v hv)] at ih
    have hcut := Cut.onward_append_onward isBlank v final
    have hfinal' : v ++ Cut.onward isBlank final =
        Cut.before isBlank v ++ Cut.onward isBlank (v ++ Cut.onward isBlank final) := by
      rw [hcut, ← List.append_assoc, Cut.before_append_onward]
    rw [ih hfinal', hcut, List.append_eq_nil_iff]
    have hword : Cut.onward isBlank v = [] → Cut.before isBlank v = v := by
      intro hb
      exact Cut.before_of_none (Cut.onward_eq_nil_iff.mp hb)
    constructor
    · rintro ⟨⟨hb, hf⟩, hvan⟩
      exact ⟨hf, .step hv hu hb (hword hb ▸ hvan)⟩
    · rintro ⟨hf, hvan⟩
      cases hvan with
      | empty hstop =>
        rcases hstop with hstop | hstop
        · cases hv.symm.trans hstop
        · exact absurd hstop hu
      | step hv' hu' hb hvan =>
        obtain rfl := Option.some.inj (hv.symm.trans hv')
        exact ⟨⟨hb, hf⟩, (hword hb).symm ▸ hvan⟩

/-- A command cut to the buffer still starts with its first word. -/
theorem take_ne_onward (h : Cut.before isBlank command ≠ []) :
    command.take bufSize ≠ Cut.onward isBlank command := by
  intro he
  cases command with
  | nil => exact h rfl
  | cons b t =>
    have hcons : Cut.onward isBlank (b :: t) = b :: t.take (bufSize - 1) := he.symm
    have hb := Cut.onward_head hcons
    exact h (by simp [Cut.before, hb])

theorem Vanishes.step_of_ne_nil (h : Vanishes m used w) (hw : w ≠ []) :
    ∃ v, m w = some v ∧ w ∉ used ∧ Cut.onward isBlank v = [] ∧ Vanishes m (w :: used) v := by
  cases h with
  | empty => exact absurd rfl hw
  | step hv hu hb h => exact ⟨_, hv, hu, hb, h⟩

/-- With a step for each unexpanded name, substitution is done to its end. -/
theorem substitute_spec (d : Dictionary) (n : Nat) (hn : (unexpanded d.toAliases used).length < n)
    (w r : CString) : Substitutes d.find used w r (substitute d.find n used w r) := by
  induction n generalizing used w r with
  | zero => omega
  | succ n ih =>
    rw [substitute]
    cases hv : d.find w with
    | none => exact .stop (.inl hv)
    | some v =>
      dsimp only
      split
      · next hu => exact .stop (.inr hu)
      · next hu =>
        have hlt := unexpanded_cons_lt d.valid hv hu
        exact .step hv hu (ih (by omega) _ _)

theorem exists_substitutes (d : Dictionary) (w r : CString) :
    ∃ out, Substitutes d.find [] w r out :=
  ⟨_, substitute_spec d _ (Nat.lt_succ_self _) w r⟩

/-- Expansion is substitution, except where a chain of single words ends in the empty text. -/
theorem expandAlias_substitutes_iff (d : Dictionary) (command : CString)
    (hfit : ∀ k v, d.find k = some v → v.length ≤ bufSize) :
    ∃ out, Substitutes d.find [] (Cut.before isBlank command) (Cut.onward isBlank command) out ∧
      (out.length ≤ bufSize →
        ((expandAlias d.toAliases command).1 = out ↔
          ¬ (Cut.before isBlank command ≠ [] ∧
            Vanishes d.find [] (Cut.before isBlank command)))) := by
  obtain ⟨out, hout⟩ :=
    exists_substitutes d (Cut.before isBlank command) (Cut.onward isBlank command)
  refine ⟨out, hout, fun hlen => ?_⟩
  obtain ⟨final, hrounds, hexp⟩ := expandAlias_spec d.valid d.released command
  rw [hexp, copyBack_eq]
  cases hrounds with
  | done hd =>
    have hcommand : out = command := by
      rw [hout.unique (.stop hd), Cut.before_append_onward]
    subst hcommand
    rw [if_pos rfl, List.take_of_length_le hlen]
    refine iff_of_true rfl ?_
    rintro ⟨hw, hvan⟩
    obtain ⟨v, hv, hu, _⟩ := hvan.step_of_ne_nil hw
    rcases hd with hd | hd
    · cases hv.symm.trans hd
    · exact hu hd
  | @again _ _ _ v _ hv hu h =>
    rw [strncpy_of_le (hfit _ v hv), Cut.onward_nil, List.append_nil] at h
    have hsplit : v = Cut.before isBlank v ++ Cut.onward isBlank v :=
      (Cut.before_append_onward isBlank v).symm
    have hsub := h.substitutes hfit hsplit (Cut.onward isBlank command)
    have hnil := h.eq_nil_iff hfit hsplit
    have hfinal := hout.unique (.step hv hu hsub)
    subst hfinal
    by_cases hf : final = []
    · obtain ⟨hb, hvan⟩ := hnil.mp hf
      rw [Cut.before_of_none (Cut.onward_eq_nil_iff.mp hb)] at hvan
      have hvan' : Vanishes d.find [] (Cut.before isBlank command) := .step hv hu hb hvan
      subst hf
      rw [if_pos rfl, List.nil_append]
      constructor
      · rintro htake ⟨hw, _⟩
        exact take_ne_onward hw htake
      · intro hnot
        have hw : Cut.before isBlank command = [] := by
          by_contra hw
          exact hnot ⟨hw, hvan'⟩
        have hcommand : Cut.onward isBlank command = command := by
          have happ := Cut.before_append_onward isBlank command
          rwa [hw, List.nil_append] at happ
        rw [List.nil_append, hcommand] at hlen
        rw [hcommand, List.take_of_length_le hlen]
    · rw [if_neg hf]
      refine iff_of_true rfl ?_
      rintro ⟨hw, hvan⟩
      obtain ⟨v', hv', _, hb, hvan⟩ := hvan.step_of_ne_nil hw
      obtain rfl := Option.some.inj (hv.symm.trans hv')
      apply hf
      rw [hnil, Cut.before_of_none (Cut.onward_eq_nil_iff.mp hb)]
      exact ⟨hb, hvan⟩

/-- `ls` with the alias `ls --color` and an argument. -/
theorem expandAlias_substitutes_iff_ls :
    ∃ out, Substitutes (Dictionary.empty.addAlias (bytes "ls") (bytes "ls --color")).find []
        (Cut.before isBlank (bytes "ls /tmp")) (Cut.onward isBlank (bytes "ls /tmp")) out ∧
      (out.length ≤ bufSize →
        ((expandAlias (Dictionary.empty.addAlias (bytes "ls") (bytes "ls --color")).toAliases
            (bytes "ls /tmp")).1 = out ↔
          ¬ (Cut.before isBlank (bytes "ls /tmp") ≠ [] ∧
            Vanishes (Dictionary.empty.addAlias (bytes "ls") (bytes "ls --color")).find []
              (Cut.before isBlank (bytes "ls /tmp"))))) := by
  apply expandAlias_substitutes_iff
  intro k v hv
  rw [Dictionary.find_single] at hv
  split at hv
  · cases hv
    decide
  · cases hv

/-- After `alias x=`, substitution turns `x foo` into its argument; the command runs `x` itself. -/
theorem expandAlias_empty_value :
    ¬ ∀ (d : Dictionary) (command out : CString),
      (∀ k v, d.find k = some v → v.length ≤ bufSize) →
      Substitutes d.find [] (Cut.before isBlank command) (Cut.onward isBlank command) out →
      out.length ≤ bufSize → (expandAlias d.toAliases command).1 = out := by
  intro hall
  have hfit : ∀ k v, (Dictionary.empty.addAlias (bytes "x") []).find k = some v →
      v.length ≤ bufSize := by
    intro k v hv
    rw [Dictionary.find_single] at hv
    split at hv <;> cases hv
    decide
  have hsub : Substitutes (Dictionary.empty.addAlias (bytes "x") []).find []
      (Cut.before isBlank (bytes "x foo")) (Cut.onward isBlank (bytes "x foo")) (bytes " foo") := by
    refine .step (v := []) ?_ (by decide) (.stop (Or.inl ?_))
    · rw [Dictionary.find_single]
      exact if_pos (by decide)
    · rw [Dictionary.find_single]
      exact if_neg (by decide)
  have heq := hall _ (bytes "x foo") _ hfit hsub (by decide)
  have hrun : (expandAlias (Dictionary.empty.addAlias (bytes "x") []).toAliases
      (bytes "x foo")).1 = bytes "x foo" := by decide +kernel
  rw [hrun] at heq
  exact absurd heq (by decide)

end Redshell
