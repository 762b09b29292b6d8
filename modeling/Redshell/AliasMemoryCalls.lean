import Redshell.AliasMemoryRun

/-! Runs of the dictionary in memory: no call fails, each one does what it says on the names, and
what is allocated is what the names need. -/
namespace Redshell.AliasMemory

open LinkedQueue (Addr null)

/-- A string of the caller. -/
structure Word where
  addr : Addr
  text : CString

inductive Call where
  | cmdAlias (argv : Option Word) (m : Grants)
  | cmdUnalias (argv : Option Word)
  | getAlias (key : Word)
  | releaseAliases

/-- What a call returns and writes. -/
inductive Reply where
  | returned (status : Int) (printed : List UInt8)
  | value (text : Option CString)
  | nothing

/-- The string is there while the call lasts. -/
def withWord (t : Table) (word : Word) (call : Table → Option (Reply × Table)) :
    Option (Reply × Table) := do
  let (reply, t) ← call { t with client := t.client.setString word.addr (some word.text) }
  let c ← free t.client word.addr
  return (reply, { t with client := c })

namespace Call

/-- None when the call reads, writes or frees what is not allocated, or an `assert` in it fails. -/
def run (t : Table) : Call → Option (Reply × Table)
  | cmdAlias none m => do
    let (status, printed, t) ← AliasMemory.cmdAlias t none m
    return (.returned status printed, t)
  | cmdAlias (some word) m => withWord t word fun t => do
    let (status, printed, t) ← AliasMemory.cmdAlias t (some word.addr) m
    return (.returned status printed, t)
  | cmdUnalias none => do
    let (status, t) ← AliasMemory.cmdUnalias t none
    return (.returned status [], t)
  | cmdUnalias (some word) => withWord t word fun t => do
    let (status, t) ← AliasMemory.cmdUnalias t (some word.addr)
    return (.returned status [], t)
  | getAlias key => withWord t key fun t => do
    let (p, t) ← AliasMemory.getAlias t key.addr
    if p = null then return (.value none, t)
    else return (.value (some (← t.client.stringAt p)), t)
  | releaseAliases => do
    let t ← AliasMemory.releaseAliases t
    return (.nothing, t)

def runAll (t : Table) : List Call → Option (List Reply × Table)
  | [] => some ([], t)
  | call :: calls => do
    let (reply, t) ← call.run t
    let (replies, t) ← runAll t calls
    return (reply :: replies, t)

/-- Memory for the word is not in use. -/
def Fresh (t : Table) (word : Word) : Prop :=
  word.addr ≠ null ∧ t.client.strings word.addr = none

/-- The allocator gives out what is not in use. The `malloc` calls of alias.c and builtins.c, whose
results are not checked, are met; those of hash-table.c need not be. -/
structure Grants.Fresh (m : Grants) (t : Table) (word : Word) : Prop where
  strings : ∀ p ∈ [m.copy, m.key, m.value], p ≠ null ∧ t.client.strings p = none
  distinct : [word.addr, m.copy, m.key, m.value].Nodup
  record : m.record ≠ null ∧ t.client.aliases m.record = none
  node : t.heap m.node = none

def Served (t : Table) : Call → Prop
  | cmdAlias none _ => True
  | cmdAlias (some word) m => Fresh t word ∧ Grants.Fresh m t word
  | cmdUnalias none => True
  | cmdUnalias (some word) => Fresh t word
  | getAlias key => Fresh t key
  | releaseAliases => True

/-- Each call is served in the state that it is made in. -/
def ServedAll (t : Table) : List Call → Prop
  | [] => True
  | call :: calls => call.Served t ∧ ∀ reply t', call.run t = some (reply, t') → ServedAll t' calls

/-- What a call does on the names, and whether an alias is lost for want of memory. -/
inductive Means : Names → Call → Reply → Nat → Names → Prop
  | listed {names : Names} {m : Grants} (listing : List (CString × CString))
      (hnodup : (listing.map Prod.fst).Nodup)
      (hlisting : ∀ k v, (k, v) ∈ listing ↔ ∃ inUse, names k = some (v, inUse)) :
      Means names (cmdAlias none m)
        (.returned 0 (listing.flatMap fun e => e.1 ++ bytes "='" ++ e.2 ++ bytes "'\n")) 0 names
  | refused {names : Names} {word : Word} {m : Grants} (hsplit : splitAtEquals word.text = none) :
      Means names (cmdAlias (some word) m) (.returned (-1) []) 0 names
  | added {names : Names} {word : Word} {m : Grants} {k v : CString}
      (hsplit : splitAtEquals word.text = some (k, v)) :
      Means names (cmdAlias (some word) m) (.returned 0 []) 0
        (Function.update names k (some (v, 0)))
  | lost {names : Names} {word : Word} {m : Grants} {k v : CString}
      (hsplit : splitAtEquals word.text = some (k, v)) (hshort : m.table = false ∨ m.node = null) :
      Means names (cmdAlias (some word) m) (.returned 0 []) 1 names
  | missing {names : Names} : Means names (cmdUnalias none) (.returned (-1) []) 0 names
  | removed {names : Names} {word : Word} :
      Means names (cmdUnalias (some word)) (.returned 0 []) 0
        (Function.update names word.text none)
  | got {names : Names} {key : Word} {v : CString} (hname : names key.text = some (v, 0)) :
      Means names (getAlias key) (.value (some v)) 0
        (Function.update names key.text (some (v, 1)))
  | idle {names : Names} {key : Word} (hname : ∀ v, names key.text ≠ some (v, 0)) :
      Means names (getAlias key) (.value none) 0 names
  | released {names : Names} :
      Means names releaseAliases .nothing 0 fun k => (names k).map fun name => (name.1, 0)

/-- What calls do one after another, and how many aliases are lost. -/
inductive Runs : Names → List Call → List Reply → Nat → Names → Prop
  | nil {names : Names} : Runs names [] [] 0 names
  | cons {names names' names'' : Names} {call : Call} {calls : List Call} {reply : Reply}
      {replies : List Reply} {lost lost' : Nat} (hcall : Means names call reply lost names')
      (hcalls : Runs names' calls replies lost' names'') :
      Runs names (call :: calls) (reply :: replies) (lost + lost') names''

end Call

open Call

variable {n : Nat} {t : Table} {names : Names} {keys : List (Addr × CString)}
  {values : List (Addr × AliasT × CString)} {word : Word} {m : Grants} {reply : Reply}

/-- The call is answered as it says; what it loses is the caller's, who has `own` besides. -/
def Answers (n : Nat) (names : Names) (own keys : List (Addr × CString))
    (values : List (Addr × AliasT × CString)) (call : Call) (result : Option (Reply × Table)) :
    Prop :=
  ∃ reply t names' keys' values' lost, result = some (reply, t) ∧
    Means names call reply lost names' ∧
    Keeps (n + 1) t names' (own ++ keys') values' ∧ keys'.length = keys.length + lost ∧
    values'.length = values.length + lost

theorem Keeps.mono (h : Keeps n t names keys values) : Keeps (n + 1) t names keys values := by
  obtain ⟨g, hholds, hview, hsized, hle⟩ := h
  exact ⟨g, hholds, hview, hsized, hle.trans (by push_cast; omega)⟩

theorem Keeps.lend (h : Keeps n t names keys values) (word : Word) (hfresh : Fresh t word) :
    Keeps n { t with client := t.client.setString word.addr (some word.text) } names
      ((word.addr, word.text) :: keys) values := by
  refine h.setClient fun keys₀ values₀ howns => ?_
  have hlent := howns.strdup (s := word.text) hfresh.1 hfresh.2
  rw [strdup, if_neg hfresh.1] at hlent
  exact hlent.perm List.perm_middle.symm (.refl _)

/-- A call with a word is one in which the caller has that string. -/
theorem Answers.withWord {call : Call} {run : Table → Option (Reply × Table)}
    (h : Answers n names [(word.addr, word.text)] keys values call
      (run { t with client := t.client.setString word.addr (some word.text) })) :
    Answers n names [] keys values call (withWord t word run) := by
  obtain ⟨reply, t', names', keys', values', lost, hrun, hmeans, ⟨g, hholds, hrest⟩, hlengths⟩ := h
  have howns := hholds.owns.perm List.perm_middle (.refl _)
  obtain ⟨hfree, howns'⟩ := howns.free
  refine ⟨reply, _, names', keys', values', lost, ?_, hmeans, ⟨g, hholds.setClient howns', hrest⟩,
    hlengths⟩
  rw [AliasMemory.withWord, hrun]
  simp only [Option.bind_eq_bind, Option.bind_some, hfree]
  rfl

/-- What is allocated after the copies of `cmd_alias`, its first one freed again. -/
def copied (c : Blocks) (m : Grants) (s k v : CString) : Blocks :=
  (strdup (strdup ((strdup c m.copy s).setString m.copy (some k)) m.key k) m.value v).setString
    m.copy none

/-- The copies of `cmd_alias` are the caller's. -/
theorem copied_spec {c : Blocks} (s k v : CString) (h : Owned c keys values)
    (hfresh : ∀ p ∈ [m.copy, m.key, m.value], p ≠ null ∧ c.strings p = none)
    (hdistinct : [m.copy, m.key, m.value].Nodup) :
    ((strdup c m.copy s).setString m.copy (some k)).stringAt m.copy = some k ∧
      free (strdup (strdup ((strdup c m.copy s).setString m.copy (some k)) m.key k) m.value v)
        m.copy = some (copied c m s k v) ∧
      Owned (copied c m s k v) ((m.value, v) :: (m.key, k) :: keys) values := by
  simp only [List.forall_mem_cons] at hfresh
  obtain ⟨⟨hcopy, hcopy'⟩, ⟨hkey, hkey'⟩, ⟨hvalue, hvalue'⟩, _⟩ := hfresh
  simp only [List.nodup_cons, List.mem_cons, not_or, List.not_mem_nil, not_false_eq_true, and_true,
    List.nodup_nil] at hdistinct
  obtain ⟨⟨hck, hcv⟩, hkv⟩ := hdistinct
  have h₂ := (h.strdup (s := s) hcopy hcopy').setString k
  have hkey₂ : ((strdup c m.copy s).setString m.copy (some k)).strings m.key = none := by
    rw [strdup, if_neg hcopy]
    simp [Blocks.setString, Ne.symm hck, hkey']
  have h₃ := h₂.strdup (s := k) hkey hkey₂
  have hvalue₃ : (strdup ((strdup c m.copy s).setString m.copy (some k)) m.key k).strings m.value =
      none := by
    rw [strdup, if_neg hkey, strdup, if_neg hcopy]
    simp [Blocks.setString, Ne.symm hcv, Ne.symm hkv, hvalue']
  have h₄ := h₃.strdup (s := v) hvalue hvalue₃
  have hperm : ((m.value, v) :: (m.key, k) :: (m.copy, k) :: keys).Perm
      ((m.copy, k) :: (m.value, v) :: (m.key, k) :: keys) :=
    ((List.Perm.swap ..).cons _).trans (List.Perm.swap ..)
  obtain ⟨hfree, h₅⟩ := (h₄.perm hperm (.refl _)).free
  exact ⟨h₂.stringAt List.mem_cons_self, hfree, h₅⟩

theorem Keeps.stringAt (h : Keeps n t names keys values) {k : Addr} {s : CString}
    (hk : (k, s) ∈ keys) : t.client.stringAt k = some s := by
  obtain ⟨g, hholds, _⟩ := h
  exact hholds.owns.stringAt (List.mem_append_right _ hk)

theorem strdup_aliases (c : Blocks) (p : Addr) (s : CString) :
    (strdup c p s).aliases = c.aliases := by
  unfold strdup
  split <;> rfl

theorem cmdAlias_spec (h : Keeps n t names ((word.addr, word.text) :: keys) values)
    (hn : n < 500000000)
    (hfresh : ∀ p ∈ [m.copy, m.key, m.value], p ≠ null ∧ t.client.strings p = none)
    (hdistinct : [m.copy, m.key, m.value].Nodup)
    (hrecord : m.record ≠ null ∧ t.client.aliases m.record = none) (hnode : t.heap m.node = none) :
    Answers n names [(word.addr, word.text)] keys values (.cmdAlias (some word) m)
      ((cmdAlias t (some word.addr) m).map fun done => (.returned done.1 done.2.1, done.2.2)) := by
  have hword := h.stringAt List.mem_cons_self
  obtain ⟨hne, hfree⟩ := hfresh m.copy List.mem_cons_self
  obtain ⟨g, hholds, hrest⟩ := h
  have hstart : Keeps n t names ((word.addr, word.text) :: keys) values := ⟨g, hholds, hrest⟩
  have hlent := hholds.owns.strdup (s := word.text) hne hfree
  have hcopy := hlent.stringAt List.mem_cons_self
  cases hsplit : strstr word.text isEquals with
  | none =>
    have hrun : cmdAlias t (some word.addr) m = some (-1, [], { t with
        client := (strdup t.client m.copy word.text).setString m.copy none }) := by
      rw [cmdAlias, hword]
      simp only [Option.bind_eq_bind, Option.bind_some, hcopy, hsplit, hlent.free.1]
      rfl
    have hkeeps := hstart.setClient fun keys₀ values₀ howns =>
      (howns.strdup (s := word.text) hne hfree).free.2
    exact ⟨_, _, names, keys, values, 0, by rw [hrun]; rfl,
      .refused (by rw [splitAtEquals, hsplit]; rfl), hkeeps.mono, rfl, rfl⟩
  | some value =>
    let k := strncpy word.text (word.text.length - value.length)
    have hsplit' : splitAtEquals word.text = some (k, value.tail) := by
      rw [splitAtEquals, hsplit]
      rfl
    obtain ⟨hkey, hfreed, _⟩ :=
      copied_spec word.text k value.tail hholds.owns hfresh hdistinct
    have hkeeps : Keeps n { t with client := copied t.client m word.text k value.tail } names
        ((m.value, value.tail) :: (m.key, k) :: (word.addr, word.text) :: keys) values :=
      hstart.setClient fun keys₀ values₀ howns =>
        (copied_spec word.text k value.tail howns hfresh hdistinct).2.2.perm
          (List.perm_append_comm_assoc [_, _] keys₀ _) (.refl _)
    have hrecord' : (copied t.client m word.text k value.tail).aliases m.record = none := by
      change (strdup (strdup ((strdup t.client m.copy word.text).setString m.copy (some k)) m.key k)
        m.value value.tail).aliases m.record = none
      rw [strdup_aliases, strdup_aliases]
      change (strdup t.client m.copy word.text).aliases m.record = none
      rw [strdup_aliases, hrecord.2]
    obtain ⟨t', hadd, hdone⟩ := addAlias_spec hkeeps hn hrecord.1 hrecord' hnode
    have hrun : cmdAlias t (some word.addr) m = some (0, [], t') := by
      rw [cmdAlias, hword]
      simp only [Option.bind_eq_bind, Option.bind_some, hcopy, hsplit]
      change (((strdup t.client m.copy word.text).setString m.copy (some k)).stringAt m.copy).bind _
        = _
      rw [hkey, Option.bind_some, hfreed, Option.bind_some, hadd]
      rfl
    rw [hrun]
    rcases hdone with ⟨hlost, hshort⟩ | hadded
    · refine ⟨_, t', names, (m.key, k) :: keys, (m.record, ⟨m.value, 0⟩, value.tail) :: values, 1,
        rfl, .lost hsplit' hshort, ?_, rfl, rfl⟩
      exact (hlost.perm (List.Perm.swap ..)).mono
    · exact ⟨_, t', _, keys, values, 0, rfl, .added hsplit', hadded, rfl, rfl⟩

/-- Every call that is served is answered. -/
theorem run_spec (h : Keeps n t names keys values) (hn : n < 500000000) (call : Call)
    (hserved : call.Served t) : Answers n names [] keys values call (call.run t) := by
  cases call with
  | cmdAlias argv m =>
    cases argv with
    | none =>
      obtain ⟨listing, hprint, hnodup, hlisting⟩ := printAliases_spec h
      refine ⟨_, t, names, keys, values, 0, ?_, .listed listing hnodup hlisting, h.mono, rfl, rfl⟩
      rw [Call.run, AliasMemory.cmdAlias, hprint]
      rfl
    | some word =>
      obtain ⟨hword, hgrants⟩ := hserved
      have hlent := h.lend _ hword
      rw [Call.run]
      refine Answers.withWord ?_
      obtain ⟨hnot, hdistinct⟩ := List.nodup_cons.mp hgrants.distinct
      have hfresh : ∀ p ∈ [m.copy, m.key, m.value], p ≠ null ∧
          (t.client.setString word.addr (some word.text)).strings p = none := by
        intro p hp
        obtain ⟨hne, hfree⟩ := hgrants.strings p hp
        have hpw : p ≠ word.addr := fun he => hnot (he ▸ hp)
        exact ⟨hne, (Function.update_of_ne hpw ..).trans hfree⟩
      have hanswers := cmdAlias_spec hlent hn hfresh hdistinct hgrants.record hgrants.node
      rwa [Option.map_eq_bind] at hanswers
  | cmdUnalias argv =>
    cases argv with
    | none => exact ⟨_, t, names, keys, values, 0, rfl, .missing, h.mono, rfl, rfl⟩
    | some word =>
      have hlent := h.lend _ hserved
      rw [Call.run]
      refine Answers.withWord ?_
      obtain ⟨t', hremove, h'⟩ := removeAlias_spec hlent List.mem_cons_self
      refine ⟨_, t', _, keys, values, 0, ?_, .removed, h'.mono, rfl, rfl⟩
      rw [AliasMemory.cmdUnalias, hremove]
      rfl
  | getAlias key =>
    have hlent := h.lend _ hserved
    rw [Call.run]
    refine Answers.withWord ?_
    rcases getAlias_spec hlent List.mem_cons_self with
      ⟨v, p, t', hname, hget, hne, hvalue, h'⟩ | ⟨hget, hname⟩
    · refine ⟨_, t', _, keys, values, 0, ?_, .got hname, h'.mono, rfl, rfl⟩
      rw [hget]
      simp only [Option.bind_eq_bind, Option.bind_some, if_neg hne, hvalue]
      rfl
    · refine ⟨_, _, _, keys, values, 0, ?_, .idle hname, hlent.mono, rfl, rfl⟩
      rw [hget]
      rfl
  | releaseAliases =>
    obtain ⟨t', hrelease, h'⟩ := releaseAliases_spec h
    refine ⟨_, t', _, keys, values, 0, ?_, .released, h'.mono, rfl, rfl⟩
    rw [Call.run, hrelease]
    rfl

/-- Every run is answered, and loses two strings and an object for each alias that it loses. -/
theorem runAll_spec (calls : List Call) (h : Keeps n t names keys values)
    (hn : n + calls.length ≤ 500000000) (hserved : ServedAll t calls) :
    ∃ replies t' names' keys' values' lost, runAll t calls = some (replies, t') ∧
      Runs names calls replies lost names' ∧ Keeps (n + calls.length) t' names' keys' values' ∧
      keys'.length = keys.length + lost ∧ values'.length = values.length + lost := by
  induction calls generalizing n t names keys values with
  | nil => exact ⟨[], t, names, keys, values, 0, rfl, .nil, h, rfl, rfl⟩
  | cons call calls ih =>
    rw [List.length_cons] at hn
    obtain ⟨hcall, hcalls⟩ := hserved
    obtain ⟨reply, t₁, names₁, keys₁, values₁, lost₁, hrun, hmeans, h₁, hk₁, hv₁⟩ :=
      run_spec h (by omega) call hcall
    rw [List.nil_append] at h₁
    obtain ⟨replies, t', names', keys', values', lost, hrest, hruns, h', hk, hv⟩ :=
      ih h₁ (by omega) (hcalls reply t₁ hrun)
    refine ⟨reply :: replies, t', names', keys', values', lost₁ + lost, ?_, .cons hmeans hruns, ?_,
      by omega, by omega⟩
    · rw [runAll, hrun]
      simp only [Option.bind_eq_bind, Option.bind_some, hrest]
      rfl
    · rwa [List.length_cons, Nat.add_comm calls.length, ← Nat.add_assoc]

/-- With any answers of the allocator to hash-table.c, every run on a new dictionary ends with no
call on what is not allocated; what is allocated then is two strings and an object for each name and
each alias that was lost and an entry for each name; and destroying the dictionary frees all of it
once, but for what was lost. -/
theorem dictionary_in_memory (calls : List Call) (hn : calls.length ≤ 500000000) (t₀ : Table)
    (h₀ : initializeAliases { strings := fun _ => none, aliases := fun _ => none } true = some t₀)
    (hserved : ServedAll t₀ calls) :
    ∃ replies t names lost, runAll t₀ calls = some (replies, t) ∧
      Runs (fun _ => none) calls replies lost names ∧
      {p | t.client.strings p ≠ none}.ncard = 2 * ({k | names k ≠ none}.ncard + lost) ∧
      {p | t.client.aliases p ≠ none}.ncard = {k | names k ≠ none}.ncard + lost ∧
      {p | t.heap p ≠ none}.ncard = {k | names k ≠ none}.ncard ∧
      ∃ c, destroyAliases t = some (c, fun _ => none) ∧ {p | c.strings p ≠ none}.ncard = 2 * lost ∧
        {p | c.aliases p ≠ none}.ncard = lost := by
  obtain ⟨t, ht, h⟩ := initializeAliases_spec
  cases h₀.symm.trans ht
  obtain ⟨replies, t, names, keys, values, lost, hrun, hruns, h, hk, hv⟩ :=
    runAll_spec calls h (by omega) hserved
  obtain ⟨hstrings, haliases, hheap⟩ := h.allocated
  obtain ⟨c, hdestroy, howned⟩ := destroyAliases_spec h
  have hstrings' := howned.strings.ncard
  have haliases' := howned.aliases.ncard
  rw [texts, List.length_append, List.length_map] at hstrings'
  rw [records, List.length_map] at haliases'
  rw [List.length_nil] at hk hv
  exact ⟨replies, t, names, lost, hrun, hruns, by omega, by omega, hheap, c, hdestroy, by omega,
    by omega⟩

/-- `alias a=1`, with no memory for the entry. -/
theorem dictionary_in_memory_a :
    ∃ t₀, initializeAliases { strings := fun _ => none, aliases := fun _ => none } true = some t₀ ∧
      ∃ replies t names lost,
        runAll t₀ [.cmdAlias (some ⟨1, bytes "a=1"⟩) ⟨2, 3, 4, 5, null, true⟩] = some (replies, t) ∧
        Runs (fun _ => none)
          [.cmdAlias (some ⟨1, bytes "a=1"⟩) ⟨2, 3, 4, 5, null, true⟩] replies lost
          names ∧
        {p | t.client.strings p ≠ none}.ncard = 2 * ({k | names k ≠ none}.ncard + lost) ∧
        {p | t.client.aliases p ≠ none}.ncard = {k | names k ≠ none}.ncard + lost ∧
        {p | t.heap p ≠ none}.ncard = {k | names k ≠ none}.ncard ∧
        ∃ c, destroyAliases t = some (c, fun _ => none) ∧
          {p | c.strings p ≠ none}.ncard = 2 * lost ∧ {p | c.aliases p ≠ none}.ncard = lost := by
  refine ⟨_, rfl, dictionary_in_memory _ (by decide) _ rfl ⟨⟨?_, ?_⟩, fun _ _ _ => trivial⟩⟩
  · exact ⟨by decide, rfl⟩
  · refine ⟨?_, by decide, ⟨by decide, rfl⟩, rfl⟩
    intro p hp
    simp only [List.mem_cons, List.not_mem_nil, or_false] at hp
    rcases hp with rfl | rfl | rfl <;> exact ⟨by decide, rfl⟩

end Redshell.AliasMemory
