import Redshell.Sequences

/-! The pointers that a builtin follows or hands on: which arguments and environments make one
NULL. -/
namespace Redshell

/-- A use of pointers that needs strings: the four library functions, the `puts` that prints a
string and a newline, `string_hash` on a name, and `printAliases` on an entry. What the table holds
is never NULL, nor is NULL a fault in `perror`. -/
inductive PointerUse where
  | strcmp (s t : Option CString)
  | strdup (s : Option CString)
  | strstr (s : Option CString)
  | chdir (path : Option CString)
  | puts (s : Option CString)
  | hash (key : Option CString)
  | entry (e : Option (HashTableEntry CString Nat))

/-- No pointer of the use is NULL. -/
def PointerUse.NonNull : PointerUse → Prop
  | strcmp s t => s ≠ none ∧ t ≠ none
  | strdup s => s ≠ none
  | strstr s => s ≠ none
  | chdir path => path ≠ none
  | puts s => s ≠ none
  | hash key => key ≠ none
  | entry e => e ≠ none

/-- What a builtin uses, of the words after its name. -/
abbrev Uses := Directories → Shell → List CString → List PointerUse

/-- The loop of `printAliases`, for at most so many turns. -/
def printUses : Nat → HashTableIterator CString Nat → List PointerUse
  | 0, _ => []
  | n + 1, it =>
    if hashTableIterHasMore it then
      let next := hashTableIterNextEntry it
      .entry next.1 :: printUses n next.2
    else []

def aliasUses : Uses := fun _ shell argv =>
  match argv with
  | [] => printUses (hashTableNumEntries shell.aliases.table).toNat
      (hashTableIterate shell.aliases.table)
  | word :: _ =>
    [.strdup (some word), .strstr (some word)] ++
      match splitAtEquals word with
      | none => []
      | some (key, value) => [.strdup (some key), .strdup (some value), .hash (some key)]

def cdUses : Uses := fun _ shell argv => [.chdir (cdPath shell argv)]

/-- After `strdup` of NULL nothing more is run. -/
def exportUses : Uses := fun _ _ argv =>
  match argv with
  | [] => [.strdup none]
  | word :: _ => [.strdup (some word), .strstr (some word)]

def unaliasUses : Uses := fun _ _ argv =>
  match argv with
  | [] => []
  | word :: _ => [.hash (some word)]

def pwdUses : Uses := fun dirs shell _ => [.puts (dirs.getcwd shell.cwd bufSize)]

/-- The uses of the builtins, in the order of `commands`. -/
def commandUses : List (CString × Uses) :=
  [(bytes "alias", aliasUses),
   (bytes "cd", cdUses),
   (bytes "echo", fun _ _ _ => []),
   (bytes "exit", fun _ _ _ => []),
   (bytes "export", exportUses),
   (bytes "pwd", pwdUses),
   (bytes "unalias", unaliasUses)]

/-- `_executeBuiltinCommand` compares the names up to that of the command, and runs its function. -/
def dispatchUses (dirs : Directories) (shell : Shell) (name : CString) (args : List CString) :
    List (CString × Uses) → List PointerUse
  | [] => []
  | p :: rest =>
    .strcmp (some p.1) (some name) ::
      if p.1 = name then p.2 dirs shell args else dispatchUses dirs shell name args rest

variable {dirs : Directories} {shell : Shell} {name : CString} {args : List CString}
  {table : List (CString × Uses)}

theorem printUses_nonNull (n : Nat) (it : HashTableIterator CString Nat) :
    ∀ u ∈ printUses n it, u.NonNull := by
  induction n generalizing it with
  | zero =>
    intro u hu
    cases hu
  | succ n ih =>
    intro u hu
    rw [printUses] at hu
    split at hu
    · next hmore =>
      rcases List.mem_cons.mp hu with rfl | hu
      · intro hnone
        cases hnext : it.nextEntry with
        | nil => simp [hashTableIterHasMore, hnext] at hmore
        | cons e rest => cases rest <;> simp [hashTableIterNextEntry, hnext] at hnone
      · exact ih _ u hu
    · cases hu

theorem aliasUses_nonNull (dirs : Directories) (shell : Shell) (args : List CString) :
    ∀ u ∈ aliasUses dirs shell args, u.NonNull := by
  cases args with
  | nil => exact printUses_nonNull _ _
  | cons word args =>
    simp only [aliasUses]
    cases splitAtEquals word <;> simp [PointerUse.NonNull]

theorem cdUses_nonNull_iff (dirs : Directories) (shell : Shell) (args : List CString) :
    (∀ u ∈ cdUses dirs shell args, u.NonNull) ↔ (args = [] → shell.env (bytes "HOME") ≠ none) := by
  cases args with
  | nil => simp [cdUses, cdPath, PointerUse.NonNull]
  | cons path args => simp [cdUses, cdPath, PointerUse.NonNull]

theorem exportUses_nonNull_iff (dirs : Directories) (shell : Shell) (args : List CString) :
    (∀ u ∈ exportUses dirs shell args, u.NonNull) ↔ args ≠ [] := by
  cases args with
  | nil => simp [exportUses, PointerUse.NonNull]
  | cons word args => simp [exportUses, PointerUse.NonNull]

theorem unaliasUses_nonNull (dirs : Directories) (shell : Shell) (args : List CString) :
    ∀ u ∈ unaliasUses dirs shell args, u.NonNull := by
  cases args <;> simp [unaliasUses, PointerUse.NonNull]

theorem pwdUses_nonNull_iff (dirs : Directories) (shell : Shell) (args : List CString) :
    (∀ u ∈ pwdUses dirs shell args, u.NonNull) ↔ dirs.getcwd shell.cwd bufSize ≠ none := by
  simp [pwdUses, PointerUse.NonNull]

/-- The comparisons get no NULL, so only the function that is found counts. -/
theorem dispatchUses_nonNull_iff (uses : Uses)
    (h : (table.find? fun p => p.1 == name) = some (name, uses)) :
    (∀ u ∈ dispatchUses dirs shell name args table, u.NonNull) ↔
      ∀ u ∈ uses dirs shell args, u.NonNull := by
  induction table with
  | nil => cases h
  | cons p rest ih =>
    obtain ⟨first, uses'⟩ := p
    rw [dispatchUses, List.forall_mem_cons,
      and_iff_right (by simp [PointerUse.NonNull] : PointerUse.NonNull (.strcmp _ _))]
    by_cases hname : first = name
    · subst hname
      rw [List.find?_cons_of_pos (by simp)] at h
      cases h
      rw [if_pos rfl]
    · rw [List.find?_cons_of_neg (by simpa using hname)] at h
      rw [if_neg hname]
      exact ih h

/-- A status other than 0 leaves the aliases and the environment as they were. -/
theorem builtin_rejects (dirs : Directories) {fn : Builtin} (hmem : (name, fn) ∈ commands)
    {status : Int} {printed : List UInt8} {shell' : Shell}
    (h : fn dirs shell args = .returned status printed shell') (hstatus : status ≠ 0) :
    shell'.aliases = shell.aliases ∧ shell'.env = shell.env := by
  rcases commands_cases hmem with ⟨_, rfl⟩ | ⟨_, rfl⟩ | ⟨_, rfl⟩ | ⟨_, rfl⟩ | ⟨_, rfl⟩ |
    ⟨_, rfl⟩ | ⟨_, rfl⟩
  · unfold cmdAlias aliasWith at h
    split at h
    · cases h
      exact ⟨rfl, rfl⟩
    · split at h
      · cases h
        exact ⟨rfl, rfl⟩
      · cases h
        exact absurd rfl hstatus
  · unfold cmdCd at h
    split at h
    · cases h
      exact ⟨rfl, rfl⟩
    · cases h
      exact ⟨rfl, rfl⟩
  · cases h
    exact absurd rfl hstatus
  · cases h
  · unfold cmdExport at h
    split at h
    · cases h
    · split at h
      · cases h
        exact ⟨rfl, rfl⟩
      · unfold setenv at h
        split at h
        · cases h
          exact ⟨rfl, rfl⟩
        · cases h
          exact absurd rfl hstatus
  · unfold cmdPwd at h
    split at h
    · cases h
      exact absurd rfl hstatus
    · cases h
  · unfold cmdUnalias unaliasWith at h
    split at h
    · cases h
      exact ⟨rfl, rfl⟩
    · cases h
      exact absurd rfl hstatus

/-- The call of a builtin comes back, uses no NULL, and a refusal changes nothing. -/
structure AcceptsArguments (dirs : Directories) (shell : Shell) (name : CString)
    (args : List CString) : Prop where
  returns : ∃ shell' printed, executeBuiltinCommand dirs shell (some (name :: args)) =
    some (.returned 0 shell' printed [])
  nonNull : ∀ u ∈ dispatchUses dirs shell name args commandUses, u.NonNull
  unchanged : ∀ fn status printed shell', findBuiltin name = some fn →
    fn dirs shell args = .returned status printed shell' → status ≠ 0 →
    shell'.aliases = shell.aliases ∧ shell'.env = shell.env

/-- Only `exit` ends the shell. -/
theorem builtin_exits (dirs : Directories) {fn : Builtin} (hmem : (name, fn) ∈ commands)
    {printed : List UInt8} (h : fn dirs shell args = .exited printed) : name = bytes "exit" := by
  rcases commands_cases hmem with ⟨_, rfl⟩ | ⟨_, rfl⟩ | ⟨_, rfl⟩ | ⟨hname, _⟩ | ⟨_, rfl⟩ |
    ⟨_, rfl⟩ | ⟨_, rfl⟩
  · cases h
  · rw [cmdCd] at h
    split at h <;> cases h
  · cases h
  · exact hname
  · unfold cmdExport at h
    split at h
    · cases h
    · split at h <;> cases h
  · unfold cmdPwd at h
    split at h <;> cases h
  · cases h

theorem executeBuiltinCommand_returns_iff (dirs : Directories) (shell : Shell) (args : List CString)
    (hname : name ∈ commands.map (·.1)) (hexit : name ≠ bytes "exit") :
    (∃ shell' printed, executeBuiltinCommand dirs shell (some (name :: args)) =
      some (.returned 0 shell' printed [])) ↔
      ¬ (name = bytes "export" ∧ args = [] ∨
        name = bytes "pwd" ∧ dirs.getcwd shell.cwd bufSize = none) := by
  obtain ⟨p, hp, hpname⟩ := List.mem_map.mp hname
  have hsome : (findBuiltin name).isSome := by
    rw [findBuiltin, Option.isSome_map, List.find?_isSome]
    exact ⟨p, hp, by simp [hpname]⟩
  obtain ⟨fn, hfind⟩ := Option.isSome_iff_exists.mp hsome
  have hmem := findBuiltin_mem hfind
  rw [← builtin_crashes_iff dirs shell hmem, executeBuiltinCommand, hfind, Option.map_some]
  cases hdone : fn dirs shell args with
  | returned status printed shell' => simp
  | exited printed => exact absurd (builtin_exits dirs hmem hdone) hexit
  | crashed => simp

/-- A builtin gets along with its arguments except for `export` without one, for `cd` without one
when HOME is not set, and for `pwd` where `getcwd` fails. -/
theorem builtin_accepts_iff (dirs : Directories) (shell : Shell) (name : CString)
    (args : List CString) (hname : name ∈ commands.map (·.1)) (hexit : name ≠ bytes "exit") :
    AcceptsArguments dirs shell name args ↔
      (args = [] → name ≠ bytes "export" ∧
        (name = bytes "cd" → shell.env (bytes "HOME") ≠ none)) ∧
      (name = bytes "pwd" → dirs.getcwd shell.cwd bufSize ≠ none) := by
  have hreturns := executeBuiltinCommand_returns_iff dirs shell args hname hexit
  have huses : (∀ u ∈ dispatchUses dirs shell name args commandUses, u.NonNull) ↔
      (args = [] → name ≠ bytes "export" ∧
        (name = bytes "cd" → shell.env (bytes "HOME") ≠ none)) ∧
      (name = bytes "pwd" → dirs.getcwd shell.cwd bufSize ≠ none) := by
    have hother : name ≠ bytes "export" → name ≠ bytes "cd" → name ≠ bytes "pwd" →
        (args = [] → name ≠ bytes "export" ∧
          (name = bytes "cd" → shell.env (bytes "HOME") ≠ none)) ∧
        (name = bytes "pwd" → dirs.getcwd shell.cwd bufSize ≠ none) :=
      fun hexport hcd hpwd =>
        ⟨fun _ => ⟨hexport, fun h => absurd h hcd⟩, fun h => absurd h hpwd⟩
    simp only [commands, List.map_cons, List.map_nil, List.mem_cons, List.not_mem_nil,
      or_false] at hname
    rcases hname with rfl | rfl | rfl | rfl | rfl | rfl | rfl
    · rw [dispatchUses_nonNull_iff aliasUses rfl]
      exact iff_of_true (aliasUses_nonNull dirs shell args)
        (hother (by decide) (by decide) (by decide))
    · have hpwd : bytes "cd" ≠ bytes "pwd" := by decide
      rw [dispatchUses_nonNull_iff cdUses rfl, cdUses_nonNull_iff,
        and_iff_left fun h => absurd h hpwd]
      exact forall_congr' fun _ => ⟨fun h => ⟨by decide, fun _ => h⟩, fun h => h.2 rfl⟩
    · rw [dispatchUses_nonNull_iff (fun _ _ _ => []) rfl]
      exact iff_of_true (by simp) (hother (by decide) (by decide) (by decide))
    · exact absurd rfl hexit
    · have hpwd : bytes "export" ≠ bytes "pwd" := by decide
      rw [dispatchUses_nonNull_iff exportUses rfl, exportUses_nonNull_iff,
        and_iff_left fun h => absurd h hpwd]
      exact forall_congr' fun _ => ⟨fun h => h.elim, fun h => absurd rfl h.1⟩
    · have hexport : bytes "pwd" ≠ bytes "export" := by decide
      have hcd : bytes "pwd" ≠ bytes "cd" := by decide
      rw [dispatchUses_nonNull_iff pwdUses rfl, pwdUses_nonNull_iff,
        and_iff_right fun _ => ⟨hexport, fun h => absurd h hcd⟩]
      exact ⟨fun h _ => h, fun h => h rfl⟩
    · rw [dispatchUses_nonNull_iff unaliasUses rfl]
      exact iff_of_true (unaliasUses_nonNull dirs shell args)
        (hother (by decide) (by decide) (by decide))
  constructor
  · intro h
    exact huses.mp h.nonNull
  · intro h
    refine ⟨hreturns.mpr ?_, huses.mpr h, ?_⟩
    · rintro (⟨hexport, hargs⟩ | ⟨hpwd, hnone⟩)
      · exact (h.1 hargs).1 hexport
      · exact h.2 hpwd hnone
    · intro fn status printed shell' hfind hdone hstatus
      exact builtin_rejects dirs (findBuiltin_mem hfind) hdone hstatus

/-- A shell without variables and aliases. -/
def bareShell : Shell := ⟨bytes "/", fun _ => none, Dictionary.empty.toAliases⟩

/-- Every path can be entered, and has room in every buffer. -/
def anyDirectories : Directories := ⟨fun _ path => some path, fun dir _ => some dir⟩

/-- `cd /tmp` without HOME. -/
theorem builtin_accepts_iff_cd :
    AcceptsArguments anyDirectories bareShell (bytes "cd") [bytes "/tmp"] ↔
      ([bytes "/tmp"] = [] → bytes "cd" ≠ bytes "export" ∧
        (bytes "cd" = bytes "cd" → bareShell.env (bytes "HOME") ≠ none)) ∧
      (bytes "cd" = bytes "pwd" →
        anyDirectories.getcwd bareShell.cwd bufSize ≠ none) :=
  builtin_accepts_iff _ _ _ _ (by decide) (by decide)

/-- `export` without an argument hands NULL to `strdup`. -/
theorem builtin_export_null :
    ¬ ∀ (dirs : Directories) (shell : Shell) (name : CString) (args : List CString),
      name ∈ commands.map (·.1) → name ≠ bytes "exit" →
      AcceptsArguments dirs shell name args := by
  intro hall
  have haccepts := hall anyDirectories bareShell (bytes "export") [] (by decide) (by decide)
  have huses := (dispatchUses_nonNull_iff exportUses rfl).mp haccepts.nonNull
  exact (exportUses_nonNull_iff anyDirectories bareShell []).mp huses rfl

end Redshell
