import Redshell.AliasMemoryAgree
import Redshell.AliasText

/-! `expandAlias` of helper.c in memory: its buffers, what they hold and when a write leaves
them. -/
namespace Redshell.AliasMemory

open LinkedQueue (Addr null)

/-- Where `calloc` puts a string: at an address that is not in use, while fewer than so many are. -/
structure Allocator (limit : Nat) where
  place : (Addr → Option CString) → Addr
  fresh : ∀ strings, {p | strings p ≠ none}.ncard < limit →
    place strings ≠ null ∧ strings (place strings) = none

variable {limit : Nat}

/-- A zeroed object. -/
def calloc (a : Allocator limit) (c : Blocks) : Addr × Blocks :=
  (a.place c.strings, c.setString (a.place c.strings) (some []))

/-- `strncpy` into a zeroed object that has more than `n` bytes. -/
def strncpyTo (c : Blocks) (p : Addr) (src : CString) (n : Nat) : Option Blocks :=
  (c.stringAt p).map fun _ => c.setString p (some (strncpy src n))

/-- `strcat` into an object of `BUFSIZE+1` bytes: none when the text and its NUL do not fit. -/
def strcatTo (c : Blocks) (p : Addr) (src : CString) : Option Blocks := do
  let dst ← c.stringAt p
  if dst.length + src.length ≤ bufSize then some (c.setString p (some (strcat dst src))) else none

/-- `strcat` of what follows the first word of a text, if there is a space in it. -/
def strcatRest (c : Blocks) (p : Addr) (text : CString) : Option Blocks :=
  match strstr text isBlank with
  | some rest => strcatTo c p rest
  | none => some c

/-- The copy of the word before the first space. -/
def copyWord (a : Allocator limit) (c : Blocks) (aux : Addr) : Option (Addr × Blocks) := do
  let text ← c.stringAt aux
  let ptr := (strstr text isBlank).getD []
  let (cmd, c) := calloc a c
  let c ← strncpyTo c cmd text (text.length - ptr.length)
  return (cmd, c)

/-- A round of the loop: the new `final` and `cmd`; the old ones are freed. -/
def expandRound (a : Allocator limit) (t : Table) (final cmd aux : Addr) :
    Option (Addr × Addr × Table) := do
  let (tmp, c) := calloc a t.client
  let c ← strncpyTo c tmp (← c.stringAt aux) bufSize
  let c ← strcatRest c tmp (← c.stringAt final)
  let c ← free c final
  let c ← free c cmd
  let (cmd, c) ← copyWord a c aux
  return (tmp, cmd, { t with client := c })

/-- The loop, for at most so many turns, and the `free(cmd)` after it. -/
def expandLoop (a : Allocator limit) : Nat → Table → Addr → Addr → Option (Addr × Table)
  | 0, _, _, _ => none
  | n + 1, t, final, cmd => do
    let (aux, t) ← getAlias t cmd
    if aux = null then
      let c ← free t.client cmd
      return (final, { t with client := c })
    else
      let (final, cmd, t) ← expandRound a t final cmd aux
      expandLoop a n t final cmd

/-- The rest of the command, or all of it, is copied back. -/
def copyBack (c : Blocks) (final command : Addr) : Option Blocks := do
  let text ← c.stringAt command
  let expanded ← c.stringAt final
  if expanded.length = 0 then strncpyTo c final text bufSize else strcatRest c final text

def expandAlias (a : Allocator limit) (t : Table) (command : Addr) : Option (Addr × Table) := do
  let (final, c) := calloc a t.client
  let (cmd, c) ← copyWord a c command
  let (final, t) ← expandLoop a t.turns { t with client := c } final cmd
  let c ← copyBack t.client final command
  let t ← releaseAliases { t with client := c }
  return (final, t)

/-- The names of a map, those in a list marked. -/
def marked (m : CString → Option CString) (used : List CString) : Names := fun k =>
  (m k).map fun v => (v, if used.contains k then 1 else 0)

/-- The writes of the rounds that put in these values stay in their buffers. -/
def RoundsFit : CString → List CString → Prop
  | _, [] => True
  | final, v :: values =>
    (v.take bufSize).length + (Cut.onward isBlank final).length ≤ bufSize ∧
      RoundsFit (v.take bufSize ++ Cut.onward isBlank final) values

/-- So do these and what is copied back after them. -/
def BufferFits (s : CString) (vs : List CString) : Prop :=
  RoundsFit [] vs ∧ (putIn (fun v => v.take bufSize) [] vs = [] ∨
    (putIn (fun v => v.take bufSize) [] vs).length + (Cut.onward isBlank s).length ≤ bufSize)

variable {a : Allocator limit} {n : Nat} {t : Table} {c : Blocks} {names : Names}
  {keys : List (Addr × CString)} {values : List (Addr × AliasT × CString)}
  {m : CString → Option CString} {used vs : List CString} {p q final cmd aux command : Addr}
  {s s' v w text : CString}

/-! Strings of the caller: what each call makes of them, and of the others. -/

/-- The dictionary of `t` among these strings and objects. -/
def KeepsIn (n : Nat) (t : Table) (c : Blocks) (names : Names) (keys : List (Addr × CString))
    (values : List (Addr × AliasT × CString)) : Prop :=
  Keeps n { t with client := c } names keys values

/-- The strings at other addresses are as before. -/
def OnlyAt (p : Addr) (c c' : Blocks) : Prop := ∀ q, q ≠ p → c'.stringAt q = c.stringAt q

theorem onlyAt_setString (c : Blocks) (p : Addr) (x : Option CString) :
    OnlyAt p c (c.setString p x) := by
  intro q hq
  rw [Blocks.stringAt, Blocks.stringAt, Blocks.setString]
  dsimp only
  rw [Function.update_of_ne hq]

/-- What is allocated is not where the allocator puts a string. -/
theorem ne_of_stringAt (hp : c.strings p = none) (hq : c.stringAt q = some s) : q ≠ p := by
  rintro rfl
  rw [Blocks.stringAt, hp] at hq
  split at hq <;> cases hq

theorem setString_self (hp : c.stringAt p = some s) : c.setString p (some s) = c := by
  have hstrings : c.strings p = some s := by
    rw [Blocks.stringAt] at hp
    split at hp
    · cases hp
    · exact hp
  rw [Blocks.setString, ← hstrings, Function.update_eq_self]

namespace KeepsIn

theorem stringAt (h : KeepsIn n t c names keys values) (hk : (p, s) ∈ keys) :
    c.stringAt p = some s := Keeps.stringAt h hk

theorem perm {keys' : List (Addr × CString)} (h : KeepsIn n t c names keys values)
    (hk : keys.Perm keys') : KeepsIn n t c names keys' values := Keeps.perm h hk

theorem setString (h : KeepsIn n t c names ((p, s) :: keys) values) (s' : CString) :
    KeepsIn n t (c.setString p (some s')) names ((p, s') :: keys) values := by
  refine Keeps.setClient (t := { t with client := c }) h fun keys₀ values₀ howns => ?_
  have hwritten := (howns.perm List.perm_middle (.refl _)).setString s'
  exact hwritten.perm List.perm_middle.symm (.refl _)

theorem calloc (h : KeepsIn n t c names keys values)
    (hroom : 2 * {k | names k ≠ none}.ncard + keys.length + values.length < limit) :
    ∃ p c', AliasMemory.calloc a c = (p, c') ∧ c.strings p = none ∧ OnlyAt p c c' ∧
      KeepsIn n t c' names ((p, []) :: keys) values := by
  have hcount := (Keeps.allocated h).1
  obtain ⟨hne, hfree⟩ := a.fresh c.strings (by rw [hcount]; exact hroom)
  exact ⟨_, _, rfl, hfree, onlyAt_setString _ _ _, Keeps.lend h ⟨_, []⟩ ⟨hne, hfree⟩⟩

theorem strncpyTo (h : KeepsIn n t c names ((p, s) :: keys) values) (src : CString) (k : Nat) :
    ∃ c', AliasMemory.strncpyTo c p src k = some c' ∧ OnlyAt p c c' ∧
      KeepsIn n t c' names ((p, src.take k) :: keys) values := by
  refine ⟨_, ?_, onlyAt_setString _ _ _, h.setString (src.take k)⟩
  rw [AliasMemory.strncpyTo, h.stringAt List.mem_cons_self]
  rfl

/-- What follows the first word of a text is appended, or does not fit. -/
theorem strcatRest (h : KeepsIn n t c names ((p, s) :: keys) values) (hs : s.length ≤ bufSize)
    (text : CString) :
    if s.length + (Cut.onward isBlank text).length ≤ bufSize then
      ∃ c', AliasMemory.strcatRest c p text = some c' ∧ OnlyAt p c c' ∧
        KeepsIn n t c' names ((p, s ++ Cut.onward isBlank text) :: keys) values
    else AliasMemory.strcatRest c p text = none := by
  have hp := h.stringAt List.mem_cons_self
  have hrun : AliasMemory.strcatRest c p text =
      if s.length + (Cut.onward isBlank text).length ≤ bufSize then
        some (c.setString p (some (s ++ Cut.onward isBlank text)))
      else none := by
    rw [AliasMemory.strcatRest, ← strstr_getD]
    cases strstr text isBlank with
    | some rest =>
      dsimp only
      rw [strcatTo, hp]
      rfl
    | none =>
      rw [Option.getD_none, List.length_nil, Nat.add_zero, if_pos hs, List.append_nil,
        setString_self hp]
  rw [hrun]
  split
  · exact ⟨_, rfl, onlyAt_setString _ _ _, h.setString _⟩
  · rfl

theorem free {keys' : List (Addr × CString)} (h : KeepsIn n t c names keys' values)
    (hk : keys'.Perm ((p, s) :: keys)) :
    ∃ c', AliasMemory.free c p = some c' ∧ OnlyAt p c c' ∧ KeepsIn n t c' names keys values := by
  obtain ⟨g, hholds, hrest⟩ := h.perm hk
  have howns := hholds.owns.perm List.perm_middle (.refl _)
  obtain ⟨hfree, howns'⟩ := howns.free
  exact ⟨_, hfree, onlyAt_setString _ _ _, g, hholds.setClient howns', hrest⟩

theorem copyWord (h : KeepsIn n t c names keys values) (haux : c.stringAt aux = some v)
    (hroom : 2 * {k | names k ≠ none}.ncard + keys.length + values.length < limit) :
    ∃ p c', AliasMemory.copyWord a c aux = some (p, c') ∧
      KeepsIn n t c' names ((p, Cut.before isBlank v) :: keys) values := by
  obtain ⟨p, c₁, hcalloc, _, _, h₁⟩ := h.calloc (a := a) hroom
  obtain ⟨c₂, hcopy, _, h₂⟩ :=
    h₁.strncpyTo v (v.length - ((strstr v isBlank).getD []).length)
  refine ⟨p, c₂, ?_, ?_⟩
  · rw [AliasMemory.copyWord, haux]
    simp only [Option.bind_eq_bind, Option.bind_some, hcalloc, hcopy]
    rfl
  · rwa [← firstWord_eq]

/-- The value and the rest of the old text are put together in a new buffer, or do not fit it. -/
theorem expandRound (h : KeepsIn n t t.client names ((cmd, w) :: (final, text) :: keys) values)
    (haux : t.client.stringAt aux = some v) (hcmd : aux ≠ cmd) (hfinal : aux ≠ final)
    (hroom : 2 * {k | names k ≠ none}.ncard + keys.length + values.length + 2 < limit) :
    if (v.take bufSize).length + (Cut.onward isBlank text).length ≤ bufSize then
      ∃ tmp cmd' c', AliasMemory.expandRound a t final cmd aux =
          some (tmp, cmd', { t with client := c' }) ∧
        KeepsIn n t c' names ((cmd', Cut.before isBlank v) ::
          (tmp, v.take bufSize ++ Cut.onward isBlank text) :: keys) values
    else AliasMemory.expandRound a t final cmd aux = none := by
  obtain ⟨tmp, c₁, hcalloc, hfresh, honly₁, h₁⟩ :=
    h.calloc (a := a) (by simp only [List.length_cons]; omega)
  have htmp := ne_of_stringAt hfresh haux
  have haux₁ := (honly₁ aux htmp).trans haux
  obtain ⟨c₂, hcopy, honly₂, h₂⟩ := h₁.strncpyTo v bufSize
  have htext := h₂.stringAt (List.mem_cons_of_mem _ (List.mem_cons_of_mem _ List.mem_cons_self))
  have hjoin := h₂.strcatRest (List.length_take_le _ _) text
  rw [AliasMemory.expandRound]
  simp only [Option.bind_eq_bind, hcalloc, haux₁, Option.bind_some, hcopy, htext]
  split
  · next hfits =>
    rw [if_pos hfits] at hjoin
    obtain ⟨c₃, hjoin, honly₃, h₃⟩ := hjoin
    -- What is freed comes to the front of the caller's strings.
    have hfront : ((tmp, v.take bufSize ++ Cut.onward isBlank text) :: (cmd, w) :: (final, text) ::
        keys).Perm ((final, text) :: (cmd, w) :: (tmp, v.take bufSize ++ Cut.onward isBlank text) ::
        keys) :=
      (((List.Perm.swap ..).cons _).trans (List.Perm.swap ..)).trans ((List.Perm.swap ..).cons _)
    obtain ⟨c₄, hfree, honly₄, h₄⟩ := h₃.free hfront
    obtain ⟨c₅, hfree', honly₅, h₅⟩ := h₄.free (.refl _)
    have haux₅ : c₅.stringAt aux = some v := by
      rw [honly₅ aux hcmd, honly₄ aux hfinal, honly₃ aux htmp, honly₂ aux htmp, haux₁]
    obtain ⟨cmd', c₆, hword, h₆⟩ := h₅.copyWord (a := a) haux₅
      (by simp only [List.length_cons]; omega)
    refine ⟨tmp, cmd', c₆, ?_, h₆⟩
    simp only [hjoin, hfree, hfree', hword, Option.bind_some]
    rfl
  · next hfits =>
    rw [if_neg hfits] at hjoin
    rw [hjoin]
    rfl

end KeepsIn

/-! The loop. -/

/-- The value that `getAlias` hands out is no string of the caller. -/
theorem getAlias_not_mem {t' : Table} (h : Keeps n t names keys values) (hk : (q, s) ∈ keys)
    (hget : getAlias t q = some (p, t')) (hne : p ≠ null) : p ∉ keys.map Prod.fst := by
  obtain ⟨g, hholds, -⟩ := h
  have hlookup := LinkedTable.hashTableLookup_spec hholds hk
  rw [getAlias, hlookup] at hget
  cases hl : hashTableLookup g s with
  | none =>
    rw [hl] at hget
    cases hget
    exact absurd rfl hne
  | some cell =>
    have hmem := (hashTableLookup_eq_some_iff hholds.wellFormed).mp hl
    have howned := List.mem_append_left values (mem_ownedValues hmem)
    obtain ⟨hcell, halias⟩ := hholds.owns.record howned
    rw [hl] at hget
    simp only [Option.bind_eq_bind, Option.bind_some, Option.map_some, Option.getD_some,
      if_neg hcell, halias] at hget
    have hp : p = cell.content.1.value := by
      split at hget
      · cases hget
        rfl
      · cases hget
        exact absurd rfl hne
    have hnodup := hholds.owns.strings.nodup
    rw [texts, List.map_append, List.map_append] at hnodup
    intro hmem
    refine (List.nodup_append.mp hnodup).2.2 p (List.mem_append_right _ hmem) p ?_ rfl
    rw [List.map_map, hp]
    exact List.mem_map_of_mem (f := fun v : Addr × AliasT × CString => v.2.1.value) howned

theorem marked_ne_none (m : CString → Option CString) (used : List CString) :
    {k | marked m used k ≠ none} = {k | m k ≠ none} := by
  ext k
  simp [marked]

theorem marked_cons (hv : m w = some v) :
    Function.update (marked m used) w (some (v, 1)) = marked m (w :: used) := by
  funext k
  rw [Function.update_apply]
  split
  · next hk =>
    subst hk
    simp [marked, hv]
  · next hk => simp [marked, hk]

/-- The loop puts in the values that the name leads to, unless they do not fit. -/
theorem expandLoop_spec (hleads : Leads m used w vs) {fuel : Nat}
    (h : Keeps n t (marked m used) ((cmd, w) :: (final, text) :: keys) values)
    (hfuel : vs.length < fuel)
    (hroom : 2 * {k | m k ≠ none}.ncard + keys.length + values.length + 2 < limit) :
    (RoundsFit text vs → ∃ p t' used', expandLoop a fuel t final cmd = some (p, t') ∧
      Keeps n t' (marked m used') ((p, putIn (fun v => v.take bufSize) text vs) :: keys) values) ∧
    (¬ RoundsFit text vs → expandLoop a fuel t final cmd = none) := by
  induction hleads generalizing t final cmd text fuel with
  | @stop used w hstop =>
    obtain ⟨fuel, rfl⟩ := Nat.exists_eq_add_one_of_ne_zero (Nat.ne_of_gt hfuel)
    refine ⟨fun _ => ?_, fun hnot => absurd trivial hnot⟩
    rcases getAlias_spec h List.mem_cons_self with ⟨v, p, t', hname, _⟩ | ⟨hget, _⟩
    · rcases hstop with hnone | hused
      · simp [marked, hnone] at hname
      · simp [marked, hused] at hname
    · obtain ⟨c, hfree, _, h'⟩ := KeepsIn.free (t := t) h (.refl _)
      refine ⟨final, _, used, ?_, h'⟩
      rw [expandLoop, hget]
      simp only [Option.bind_eq_bind, Option.bind_some, if_pos, hfree]
      rfl
  | @step used vs w v hv hu _ ih =>
    obtain ⟨fuel, rfl⟩ := Nat.exists_eq_add_one_of_ne_zero (Nat.ne_of_gt (Nat.zero_lt_of_lt hfuel))
    have hfuel' : vs.length < fuel := Nat.lt_of_succ_lt_succ hfuel
    rcases getAlias_spec h List.mem_cons_self with ⟨v', aux, t', hname, hget, hne, haux, h'⟩ |
      ⟨_, hname⟩
    · obtain rfl : v' = v := by
        have hmarked : marked m used w = some (v, 0) := by simp [marked, hv, hu]
        exact (Prod.mk.inj (Option.some.inj (hname.symm.trans hmarked))).1
      rw [marked_cons hv] at h'
      have hnot := getAlias_not_mem h List.mem_cons_self hget hne
      simp only [List.map_cons, List.mem_cons, not_or] at hnot
      have hround := KeepsIn.expandRound (a := a) (t := t') h' haux hnot.1 hnot.2.1
        (by rw [marked_ne_none]; exact hroom)
      have hstep : expandLoop a (fuel + 1) t final cmd =
          (expandRound a t' final cmd aux).bind fun r => expandLoop a fuel r.2.2 r.1 r.2.1 := by
        rw [expandLoop, hget]
        simp only [Option.bind_eq_bind, Option.bind_some, if_neg hne]
      rw [hstep, RoundsFit, putIn_cons]
      by_cases hfits : (v'.take bufSize).length + (Cut.onward isBlank text).length ≤ bufSize
      · rw [if_pos hfits] at hround
        obtain ⟨tmp, cmd', c', hrun, hkept⟩ := hround
        obtain ⟨hdone, hfault⟩ := ih (t := { t' with client := c' }) hkept hfuel'
        rw [hrun]
        exact ⟨fun hrest => hdone hrest.2, fun hrest => hfault fun hrest' => hrest ⟨hfits, hrest'⟩⟩
      · rw [if_neg hfits] at hround
        rw [hround]
        exact ⟨fun hrest => absurd hrest.1 hfits, fun _ => rfl⟩
    · exact absurd (by simp [marked, hv, hu]) (hname v)

/-! The whole expansion. -/

/-- A name leads to no more values than there are names not yet used. -/
theorem length_le_of_leads {ks : List CString} (hleads : Leads m used w vs)
    (hks : ∀ k v, m k = some v → k ∈ ks) : vs.length ≤ (ks.filter (· ∉ used)).length := by
  induction hleads with
  | stop => exact Nat.zero_le _
  | @step used vs w v hv hu _ ih =>
    have hlt : (ks.filter (· ∉ w :: used)).length < (ks.filter (· ∉ used)).length := by
      have hsub : ks.filter (· ∉ w :: used) = (ks.filter (· ∉ used)).filter (· ≠ w) := by
        rw [List.filter_filter]
        congr 1
        funext k
        by_cases hk : k = w <;> simp [hk]
      rw [hsub]
      exact List.length_filter_lt_length_iff_exists.mpr ⟨w, by simp [hks w v hv, hu], by simp⟩
    rw [List.length_cons]
    omega

/-- The writes of the rounds and of what follows them fit exactly when the values do. -/
theorem roundsFit_iff (rest : Nat) (text : CString) (hne : vs ≠ []) :
    (RoundsFit text vs ∧ (putIn (fun v => v.take bufSize) text vs).length + rest ≤ bufSize) ↔
      Fits rest (Cut.onward isBlank text).length vs := by
  induction vs generalizing text with
  | nil => exact absurd rfl hne
  | cons v vs ih =>
    rw [RoundsFit, putIn_cons]
    cases vs with
    | nil =>
      rw [RoundsFit, putIn_nil, List.length_append, Fits]
      constructor
      · exact fun h => h.2
      · exact fun h => ⟨⟨(Nat.le_add_right _ rest).trans h, trivial⟩, h⟩
    | cons v' vs =>
      rw [and_assoc, ih _ (List.cons_ne_nil v' vs), Cut.onward_append_onward, List.length_append,
        Nat.add_comm (Cut.onward isBlank (v.take bufSize)).length]
      rfl

theorem length_putIn_le (h : RoundsFit text vs) (htext : text.length ≤ bufSize) :
    (putIn (fun v => v.take bufSize) text vs).length ≤ bufSize := by
  induction vs generalizing text with
  | nil => exact htext
  | cons v vs ih => exact ih h.2 (by rw [List.length_append]; exact h.1)

theorem KeepsIn.copyBack (h : KeepsIn n t c names ((p, text) :: keys) values)
    (hk : (command, s) ∈ keys) (htext : text.length ≤ bufSize) :
    if text = [] ∨ text.length + (Cut.onward isBlank s).length ≤ bufSize then
      ∃ c', AliasMemory.copyBack c p command = some c' ∧
        KeepsIn n t c' names ((p, Redshell.copyBack text s) :: keys) values
    else AliasMemory.copyBack c p command = none := by
  have hcommand := h.stringAt (List.mem_cons_of_mem _ hk)
  have hfinal := h.stringAt List.mem_cons_self
  rw [AliasMemory.copyBack, hcommand, hfinal, copyBack_eq]
  simp only [Option.bind_eq_bind, Option.bind_some, List.length_eq_zero_iff]
  by_cases hnil : text = []
  · obtain ⟨c', hrun, _, h'⟩ := h.strncpyTo s bufSize
    rw [if_pos (.inl hnil), if_pos hnil, if_pos hnil]
    exact ⟨c', hrun, h'⟩
  · have hrest := h.strcatRest htext s
    rw [if_neg hnil, if_neg hnil]
    split
    · next hfits =>
      rw [if_pos (hfits.resolve_left hnil)] at hrest
      obtain ⟨c', hrun, _, h'⟩ := hrest
      exact ⟨c', hrun, h'⟩
    · next hfits => rwa [if_neg (not_or.mp hfits).2] at hrest

theorem length_lt_turns (h : Keeps n t (marked m []) keys values) (hleads : Leads m [] w vs) :
    vs.length < t.turns := by
  obtain ⟨g, hholds, hview, _⟩ := h
  have hkeys : ∀ k v, m k = some v → k ∈ Chain.keys g.contents := by
    intro k v hv
    by_contra hk
    have hnone : view g k = none := by
      rw [view, (hashTableLookup_eq_none_iff hholds.wellFormed).mpr hk]
      rfl
    rw [hview, marked, hv] at hnone
    cases hnone
  have hle := (length_le_of_leads hleads hkeys).trans (List.length_filter_le _ _)
  rw [Chain.keys, List.length_map] at hle
  exact hle.trans_lt (length_contents_lt hholds)

theorem released_marked (m : CString → Option CString) (used : List CString) :
    (fun k => (marked m used k).map fun name => (name.1, (0 : Int))) = marked m [] := by
  funext k
  simp [marked, Function.comp_def]

/-- With the values that the first word leads to, the expansion puts them in and copies the rest
back, or a write leaves its buffer. -/
theorem expandAlias_run (a : Allocator limit) (h : Keeps n t (marked m []) keys values)
    (hk : (command, s) ∈ keys) (hleads : Leads m [] (Cut.before isBlank s) vs)
    (hroom : 2 * {k | m k ≠ none}.ncard + keys.length + values.length + 2 < limit) :
    (BufferFits s vs → ∃ p t', expandAlias a t command = some (p, t') ∧
      Keeps n t' (marked m [])
        ((p, Redshell.copyBack (putIn (fun v => v.take bufSize) [] vs) s) :: keys) values) ∧
    (¬ BufferFits s vs → expandAlias a t command = none) := by
  have hroom' := hroom
  rw [← marked_ne_none m []] at hroom'
  have hcommand : t.client.stringAt command = some s := h.stringAt hk
  obtain ⟨final, c₁, hcalloc, hfresh, honly, h₁⟩ :=
    KeepsIn.calloc (t := t) (a := a) h (by omega)
  have hcommand₁ := (honly command (ne_of_stringAt hfresh hcommand)).trans hcommand
  obtain ⟨cmd, c₂, hword, h₂⟩ := h₁.copyWord (a := a) hcommand₁
    (by simp only [List.length_cons]; omega)
  obtain ⟨hdone, hfault⟩ := expandLoop_spec (a := a) hleads (t := { t with client := c₂ }) h₂
    (length_lt_turns h hleads) hroom
  have hstart : expandAlias a t command =
      (expandLoop a t.turns { t with client := c₂ } final cmd).bind fun r =>
        (copyBack r.2.client r.1 command).bind fun c =>
          (releaseAliases { r.2 with client := c }).bind fun t => some (r.1, t) := by
    rw [expandAlias]
    simp only [Option.bind_eq_bind, hcalloc, hword, Option.bind_some]
    rfl
  rw [hstart]
  by_cases hfits : RoundsFit [] vs
  · obtain ⟨p, t₁, used, hrun, h₃⟩ := hdone hfits
    have hback := KeepsIn.copyBack (t := t₁) h₃ hk (length_putIn_le hfits (Nat.zero_le _))
    rw [hrun, Option.bind_some]
    constructor
    · rintro ⟨-, hrest⟩
      rw [if_pos hrest] at hback
      obtain ⟨c₃, hcopy, h₄⟩ := hback
      obtain ⟨t₂, hrelease, h₅⟩ := releaseAliases_spec h₄
      rw [released_marked] at h₅
      refine ⟨p, t₂, ?_, h₅⟩
      rw [hcopy, Option.bind_some, hrelease, Option.bind_some]
    · intro hrest
      rw [if_neg fun hboth => hrest ⟨hfits, hboth⟩] at hback
      rw [hback]
      rfl
  · refine ⟨fun hboth => absurd hboth.1 hfits, fun _ => ?_⟩
    rw [hfault hfits]
    rfl

/-- With a dictionary in memory and no flag set, the expansion of a command that fits the buffer is
a new string with the text of the expansion. All else that was allocated for it is freed, and the
dictionary is as before. But if the values that its first word leads to do not fit, a write leaves
its buffer. -/
theorem expandAlias_in_memory (a : Allocator limit) (d : Dictionary)
    (h : Keeps n t (marked d.find []) keys values) (hk : (command, s) ∈ keys)
    (hs : s.length ≤ bufSize)
    (hroom : 2 * {k | d.find k ≠ none}.ncard + keys.length + values.length + 2 < limit) :
    ((∃ vs, Leads d.find [] (Cut.before isBlank s) vs ∧ Fits (Cut.onward isBlank s).length 0 vs) →
      ∃ p t', expandAlias a t command = some (p, t') ∧
        Keeps n t' (marked d.find [])
          ((p, (Redshell.expandAlias d.toAliases s).1) :: keys) values) ∧
    ((¬ ∃ vs, Leads d.find [] (Cut.before isBlank s) vs ∧ Fits (Cut.onward isBlank s).length 0 vs) →
      expandAlias a t command = none) := by
  obtain ⟨rounds, st', out, hruns, _⟩ :=
    exists_loopRuns d.valid d.released.marked [] (firstWord s)
  have hleads := hruns.leads d.valid d.released.marked
  rw [firstWord_eq] at hleads
  generalize rounds.map (·.value) = vs at hleads
  obtain ⟨final, hrounds, hexpanded⟩ := expandAlias_spec d.valid d.released s
  have hrun := expandAlias_run (a := a) h hk hleads hroom
  have hwhole : (∃ vs, Leads d.find [] (Cut.before isBlank s) vs ∧
      Fits (Cut.onward isBlank s).length 0 vs) ↔ Fits (Cut.onward isBlank s).length 0 vs :=
    ⟨fun ⟨vs', hleads', hfits⟩ => hleads.unique hleads' ▸ hfits, fun hfits => ⟨vs, hleads, hfits⟩⟩
  have hfit : BufferFits s vs ↔ Fits (Cut.onward isBlank s).length 0 vs := by
    have hrest := congrArg List.length (Cut.before_append_onward isBlank s)
    rw [List.length_append] at hrest
    by_cases hne : vs = []
    · subst hne
      exact iff_of_true ⟨trivial, .inl rfl⟩ trivial
    · refine .trans ?_ (roundsFit_iff (Cut.onward isBlank s).length [] hne)
      refine and_congr_right fun _ => ⟨fun hor => hor.elim (fun hnil => ?_) id, .inr⟩
      rw [hnil, List.length_nil]
      omega
  rw [hexpanded, hrounds.eq_putIn hleads, hwhole, ← hfit]
  exact hrun

/-- The lowest of eight addresses that is not in use. -/
def lowest : Allocator 8 where
  place strings := (([1, 2, 3, 4, 5, 6, 7, 8] : List Addr).find? (strings · = none)).getD null
  fresh strings hlimit := by
    cases hfind : ([1, 2, 3, 4, 5, 6, 7, 8] : List Addr).find? (strings · = none) with
    | some p =>
      have hnone : strings p = none := of_decide_eq_true (List.find?_some hfind :)
      have hmem := List.mem_of_find?_eq_some hfind
      refine ⟨?_, hnone⟩
      rintro rfl
      exact absurd hmem (by decide)
    | none =>
      have hall : (([1, 2, 3, 4, 5, 6, 7, 8] : List Addr).toFinset : Set Addr) ⊆
          {p | strings p ≠ none} := by
        intro p hp
        rw [Finset.mem_coe, List.mem_toFinset] at hp
        simpa using List.find?_eq_none.mp hfind p hp
      have hle := Set.ncard_le_ncard hall (Set.toFinite _)
      rw [Set.ncard_coe_finset, List.toFinset_card_of_nodup (by decide)] at hle
      exact absurd hlimit (Nat.not_lt.mpr hle)

theorem expandAlias_in_memory_ll :
    ∃ t, Keeps 1 t (marked (Dictionary.empty.addAlias (bytes "ll") (bytes "ls -l")).find [])
        [(3, bytes "ll /")] [] ∧
      ∃ p t', expandAlias lowest t 3 = some (p, t') ∧
        Keeps 1 t' (marked (Dictionary.empty.addAlias (bytes "ll") (bytes "ls -l")).find [])
          [(p, bytes "ls -l /"), (3, bytes "ll /")] [] := by
  obtain ⟨t₀, hinit, h₀⟩ := initializeAliases_spec
  cases hinit
  have h₁ := h₀.lend ⟨3, bytes "ll /"⟩ ⟨by decide, rfl⟩
  have h₂ := h₁.lend ⟨1, bytes "ll"⟩ ⟨by decide, rfl⟩
  have h₃ := h₂.lend ⟨2, bytes "ls -l"⟩ ⟨by decide, rfl⟩
  obtain ⟨t, -, hadded⟩ := addAlias_spec (m := ⟨null, 1, 2, 4, 5, true⟩) h₃ (by decide) (by decide)
    rfl rfl
  rcases hadded with ⟨-, hshort⟩ | h
  · exact absurd hshort (by decide)
  have hnames : Function.update (fun _ => none) (bytes "ll") (some (bytes "ls -l", (0 : Int))) =
      marked (Dictionary.empty.addAlias (bytes "ll") (bytes "ls -l")).find [] := by
    funext k
    rw [Function.update_apply, marked, Dictionary.find_single]
    split <;> rfl
  rw [hnames] at h
  have hone : {k | (Dictionary.empty.addAlias (bytes "ll") (bytes "ls -l")).find k ≠ none} =
      {bytes "ll"} := by
    ext k
    rw [Set.mem_ofPred_eq, Dictionary.find_single]
    split <;> simp [*]
  have hword : Cut.before isBlank (bytes "ll /") = bytes "ll" := by decide
  have hrun := (expandAlias_in_memory lowest _ h List.mem_cons_self (by decide)
    (by rw [hone, Set.ncard_singleton]; decide)).1 ?_
  · obtain ⟨p, t', hrun, h'⟩ := hrun
    refine ⟨t, h, p, t', hrun, ?_⟩
    have htext : (Redshell.expandAlias
        (Dictionary.empty.addAlias (bytes "ll") (bytes "ls -l")).toAliases (bytes "ll /")).1 =
        bytes "ls -l /" := by decide
    rw [htext] at h'
    exact h'
  · rw [hword]
    refine ⟨[bytes "ls -l"], .step ?_ (by decide) (.stop (.inl ?_)), by unfold Fits; decide⟩
    · rw [Dictionary.find_single]
      rfl
    · rw [Dictionary.find_single]
      rfl

end Redshell.AliasMemory
