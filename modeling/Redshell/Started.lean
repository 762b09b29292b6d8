import Redshell.Queued
import Redshell.Waits

/-! Every command of a queue is executed once, in its own child or in the shell. -/
namespace Redshell

/-- The process that executes a command: its child, or none for a foreground builtin outside a
pipeline that is last, which the shell executes. -/
def startsIn (q : Queue) (i : Nat) (cmd : Command) : Option Nat :=
  if i + 1 = q.length ∧ cmd.connectionMask ≠ .background ∧ pipedAt q i = false ∧
      isBuiltin cmd.path = some true then none
  else some i

/-- The command whose child a deed makes. -/
def Deed.forked : Deed → Option Nat
  | fork i _ => some i
  | _ => none

/-- Each command is executed once, in the order of the queue, and no other child is made. -/
structure StartsOnce (q : Queue) (done : JobWorld × Ending (Int × Queue)) : Prop where
  starts : (starts done.1).map (fun start => (start.process, start.index, start.command)) =
    q.mapIdx fun i cmd => (startsIn q i cmd, i, cmd)
  forks : (deeds done.1).filterMap (fun d => d.deed.forked) =
    (q.mapIdx fun i cmd => startsIn q i cmd).reduceOption
  emptied : ∀ value rest, done.2 = .returned (value, rest) → rest = []
  returns : (∀ i cmd, q[i]? = some cmd → startsIn q i cmd ≠ none) →
    ∃ value, done.2 = .returned (value, [])

variable {host : Host} {q : Queue} {cmd : Command} {i k : Nat} {done : List Done} {l : Locals}

theorem forked_eq_none {deed : Deed} (h : ∀ pid, deed.makes pid = none) : deed.forked = none := by
  cases deed with
  | fork i pid => simpa [Deed.makes] using h pid
  | waitpid pid => rfl
  | reap pid => rfl
  | free cmd => rfl
  | setFgPid pid => rfl

theorem filterMap_forked (h : ∀ pid, ∀ d ∈ done, d.deed.makes pid = none) :
    done.filterMap (fun d => d.deed.forked) = [] := by
  rw [List.filterMap_eq_nil_iff]
  exact fun d hd => forked_eq_none fun pid => h pid d hd

/-- A turn makes the child of its command. -/
theorem forked_turnDeeds (host : Host) (cmd : Command) (t : Locals × JobFiles) :
    (turnDeeds host cmd t).filterMap (fun d => d.deed.forked) = [t.1.i] := by
  obtain ⟨d, rest, hsplit, hdeed, _, hmakes⟩ := turnDeeds_split host cmd t
  rw [hsplit, List.filterMap_append, filterMap_forked fun pid => makes_waited pid t.1 t.2,
    List.nil_append, List.filterMap_cons, hdeed]
  exact congrArg _ (filterMap_forked hmakes)

/-- The children of the first turns. -/
theorem forked_turns (host : Host) (stack : Stack) (f : JobFiles) (hk : k ≤ q.length) :
    ((List.range k).flatMap (deedsAt host q (entry stack q f))).filterMap
      (fun d => d.deed.forked) = List.range k := by
  induction k with
  | zero => rfl
  | succ k ih =>
    have hcmd : q[k]? = some q[k] := List.getElem?_eq_getElem (by omega)
    rw [List.range_succ, List.flatMap_append, List.flatMap_singleton, List.filterMap_append,
      ih (by omega), deedsAt_eq hcmd, forked_turnDeeds,
      (entry_counted host stack f (by omega)).index]

/-- What the first turns start, when every `fork` succeeds. -/
theorem starts_turns (hhost : host.Succeeds) (stack : Stack) (f : JobFiles) (hk : k ≤ q.length) :
    ((List.range k).flatMap (startsAt host q (entry stack q f))).map
        (fun start => (start.process, start.index, start.command)) =
      (q.take k).mapIdx fun i cmd => (some i, i, cmd) := by
  induction k with
  | zero => rfl
  | succ k ih =>
    have hlt : k < q.length := by omega
    have hcmd : q[k]? = some q[k] := List.getElem?_eq_getElem hlt
    have hindex := (entry_counted host stack f hlt.le).index
    rw [List.range_succ, List.flatMap_append, List.flatMap_singleton, List.map_append,
      ih (by omega), startsAt_eq hcmd, hhost.child, List.take_succ_eq_append_getElem hlt,
      List.mapIdx_concat, List.length_take_of_le hlt.le, List.map_singleton]
    congr 3
    · exact congrArg some hindex
    · exact Prod.ext hindex rfl

/-- A command in the middle of the run, or the last one when the loop gets past it, has a child. -/
theorem startsIn_of_continues (hcont : Continues host q k) (hi : i < k) (hcmd : q[i]? = some cmd) :
    startsIn q i cmd = some i := by
  rw [startsIn, if_neg]
  rintro ⟨hlast, hmask, hsingle, hbuiltin⟩
  have hshell := hcont.forks i cmd hi hcmd hsingle
  rw [hlast, List.drop_length, runsInShell, if_pos ⟨hmask, rfl⟩, hbuiltin] at hshell
  cases hshell

theorem mapIdx_startsIn {α : Type} (F : Option Nat → Nat → Command → α)
    (hcont : Continues host q k) :
    (q.take k).mapIdx (fun i cmd => F (startsIn q i cmd) i cmd) =
      (q.take k).mapIdx fun i cmd => F (some i) i cmd := by
  rw [List.mapIdx_eq_mapIdx_iff]
  intro i hi
  rw [List.length_take] at hi
  have hcmd : q[i]? = some (q.take k)[i] := by
    rw [List.getElem_take]
    exact List.getElem?_eq_getElem (by omega)
  rw [startsIn_of_continues hcont (by omega) hcmd]

theorem reduceOption_mapIdx (q : Queue) :
    (q.mapIdx fun i _ => some i).reduceOption = List.range q.length := by
  induction q using List.reverseRecOn with
  | nil => rfl
  | append_singleton q cmd ih =>
    rw [List.mapIdx_concat, List.reduceOption_append, ih, List.length_append,
      List.length_singleton, List.range_succ]
    rfl

/-- The loop gets to its end. -/
theorem startsOnce_finished (hhost : host.Succeeds) (stack : Stack) (files : JobFiles)
    (memory : Memory) (hq : q ≠ []) (hcont : Continues host q q.length) :
    StartsOnce q (run host.system (executeCommandsInQueue stack q) (shellWorld files memory)) := by
  obtain ⟨w', hrun, hmoved⟩ := execute_finished stack hq (w := shellWorld files memory) rfl hcont
  have hstarts := mapIdx_startsIn (fun process i cmd => (process, i, cmd)) hcont
  have hforks := mapIdx_startsIn (fun process _ _ => process) hcont
  rw [List.take_length] at hstarts hforks
  rw [hrun]
  refine ⟨?_, ?_, ?_, fun _ => ⟨0, rfl⟩⟩
  · have hturns := starts_turns hhost stack files (le_refl q.length)
    rw [List.take_length] at hturns
    rw [hmoved.starts, hstarts]
    exact hturns
  · have hfinal : ∀ l : Locals, ∀ f, (l.finalDeeds f).filterMap (fun d => d.deed.forked) = [] := by
      intro l f
      refine filterMap_forked fun pid d hd => ?_
      rcases List.mem_append.mp hd with hd | hd
      · exact makes_waited pid l _ d hd
      rcases List.mem_append.mp hd with hd | hd
      · exact makes_freed pid l _ d hd
      rcases List.mem_append.mp hd with hd | hd
      · obtain ⟨i, _, rfl⟩ := List.mem_map.mp hd
        rfl
      · obtain rfl := List.mem_singleton.mp hd
        rfl
    rw [hmoved.deeds, hforks, reduceOption_mapIdx]
    change ([] ++ _ : List Done).filterMap _ = _
    rw [List.nil_append, List.filterMap_append, hfinal, List.append_nil]
    exact forked_turns host stack files le_rfl
  · rintro value rest ⟨⟩
    rfl

/-- The shell executes the last command. -/
theorem startsOnce_inShell (hhost : host.Succeeds) (stack : Stack) (files : JobFiles)
    (memory : Memory) (hcont : Continues host q k) (hcmd : q[k]? = some cmd)
    (hsingle : pipedAt q k = false) (hshell : runsInShell cmd (q.drop (k + 1)) = some true) :
    StartsOnce q (run host.system (executeCommandsInQueue stack q) (shellWorld files memory)) := by
  have hlt := lt_of_turn hcmd
  have hlast : k + 1 = q.length := by
    have := List.drop_eq_nil_iff.mp (runsInShell_last hshell)
    omega
  have hnone : startsIn q k cmd = none := by
    unfold runsInShell at hshell
    split at hshell
    · next hmask => exact if_pos ⟨hlast, hmask.1, hsingle, hshell⟩
    · cases hshell
  have hq : q.take k ++ [cmd] = q := by
    obtain ⟨_, rfl⟩ := List.getElem?_eq_some_iff.mp hcmd
    rw [← List.take_succ_eq_append_getElem hlt, hlast, List.take_length]
  have hsplit : ∀ {α : Type} (F : Option Nat → Nat → Command → α),
      q.mapIdx (fun i cmd => F (startsIn q i cmd) i cmd) =
        (q.take k).mapIdx (fun i cmd => F (some i) i cmd) ++ [F none k cmd] := by
    intro α F
    rw [← mapIdx_startsIn F hcont]
    conv_lhs => rw [← hq]
    rw [List.mapIdx_concat, List.length_take_of_le hlt.le, hq, hnone]
  obtain ⟨w₁, w', hrun, hmoved, hran⟩ := execute_inShell stack (w := shellWorld files memory) rfl
    hcont hcmd (hhost.failsAt k cmd) hsingle hshell
  rw [hrun]
  refine ⟨?_, ?_, ?_, fun hall => absurd hnone (hall k cmd hcmd)⟩
  · rw [hsplit fun process i cmd => (process, i, cmd), hran.starts, hmoved.starts, List.map_append,
      List.map_singleton]
    exact congrArg (· ++ _) (starts_turns hhost stack files hlt.le)
  · rw [hsplit fun process _ _ => process, hran.deeds, hmoved.deeds, List.reduceOption_append,
      reduceOption_mapIdx, List.length_take_of_le hlt.le]
    change ([] ++ _ ++ _ : List Done).filterMap _ = _
    have hafter : ∀ f, ((executeCommand host memory.shell cmd).freed cmd f).filterMap
        (fun d => d.deed.forked) = [] := by
      intro f
      cases executeCommand host memory.shell cmd <;> rfl
    rw [List.nil_append, List.filterMap_append, List.filterMap_append,
      filterMap_forked fun pid => makes_waited pid _ _, forked_turns host stack _ hlt.le]
    exact congrArg (List.range k ++ ·) (hafter _)
  · intro value rest hreturned
    cases hexecuted : executeCommand host (shellWorld files memory).memory.shell cmd <;>
      rw [hexecuted] at hreturned <;> cases hreturned
    rfl

/-- With every call succeeding and a name for every command, each command of a queue is executed
exactly once. -/
theorem startsOnce_of_named (hhost : host.Succeeds) (stack : Stack) (files : JobFiles)
    (memory : Memory) (hnamed : ∀ cmd ∈ q, cmd.path ≠ none) :
    StartsOnce q (run host.system (executeCommandsInQueue stack q) (shellWorld files memory)) := by
  by_cases hq : q = []
  · subst hq
    refine ⟨rfl, rfl, ?_, fun _ => ⟨0, rfl⟩⟩
    rintro value rest ⟨⟩
    rfl
  rcases course host q with ⟨k, cmd, _, _, hfail⟩ | ⟨k, cmd, hcont, hcmd, _, hsingle, hshell⟩ |
    ⟨k, cmd, _, hcmd, _, _, hshell⟩ | ⟨hcont⟩
  · rw [hhost.failsAt] at hfail
    cases hfail
  · exact startsOnce_inShell hhost stack files memory hcont hcmd hsingle hshell
  · unfold runsInShell at hshell
    split at hshell
    · exact absurd (Option.map_eq_none_iff.mp hshell)
        (hnamed cmd (List.mem_of_getElem? hcmd))
    · cases hshell
  · exact startsOnce_finished hhost stack files memory hq hcont

/-- Every command of a line is started exactly once, in order, when each has a word. -/
theorem execute_starts_once (wordexp : Wordexp) (d : Dictionary) (calls : List ExpandCall)
    (created : Nat) (line : CString) (hline : ∀ c ∈ line, c ≠ 0) (r : Parse)
    (hparse : parseInput wordexp ⟨d.toAliases, calls, created⟩ line = .ok r)
    (hwords : ∀ cmd ∈ r.queue, cmd.argv ≠ some []) (host : Host) (hhost : host.Succeeds)
    (stack : Stack) (files : JobFiles) (memory : Memory) :
    StartsOnce r.queue
      (run host.system (executeCommandsInQueue stack r.queue) (shellWorld files memory)) := by
  obtain ⟨r', hr', hmakes, _⟩ := parseInput_queued wordexp d calls created line hline
  cases hparse.symm.trans hr'
  refine startsOnce_of_named hhost stack files memory fun cmd hmem => ?_
  obtain ⟨i, hcmd⟩ := List.getElem?_of_mem hmem
  obtain ⟨u, _, hmade⟩ := hmakes.made i cmd hcmd
  obtain ⟨words, _, hargv, hpath⟩ := hmade.words
  cases words with
  | nil => exact absurd hargv (hwords cmd hmem)
  | cons name args => simp [hpath]

/-- A pipeline, and a builtin that the shell executes. -/
theorem execute_starts_once_cd :
    ∃ r, parseInput splitBlanks ⟨Dictionary.empty.toAliases, [], 0⟩ (bytes "ls | wc &; cd /") =
        .ok r ∧
      StartsOnce r.queue (run willing.system (executeCommandsInQueue zeroStack r.queue)
        (shellWorld ⟨[], 0⟩ ⟨⟨[], fun _ => none, Dictionary.empty.toAliases⟩, 0⟩)) := by
  obtain ⟨r, hparse, _⟩ := exists_parse splitBlanks ⟨Dictionary.empty.toAliases, [], 0⟩
    (bytes "ls | wc &; cd /") (by decide +kernel)
  have hargvs : (parseInput splitBlanks ⟨Dictionary.empty.toAliases, [], 0⟩
      (bytes "ls | wc &; cd /")).map (fun r => r.queue.all fun cmd => cmd.argv != some []) =
      .ok true := by decide +kernel
  rw [hparse] at hargvs
  refine ⟨r, hparse, execute_starts_once splitBlanks Dictionary.empty [] 0 _ (by decide +kernel) r
    hparse (fun cmd hmem => ?_) willing willing_succeeds zeroStack _ _⟩
  simpa using List.all_eq_true.mp (Except.ok.inj hargvs) cmd hmem

end Redshell
