import Redshell.MainLoop
import Redshell.Written

/-! Sessions of written lines: each line does what the queue it was written from says. -/
namespace Redshell

/-- The commands of a queue as a new line makes them. -/
def numbered (q : Queue) : Queue := q.mapIdx fun i cmd => { cmd with addr := i }

/-- What a queue amounts to, without a line that it is read from. -/
def perform (host : Host) (q : Queue) (history : List CString) (shell : Shell) : Talk :=
  let effect := carryOut host shell 0 false (numbered q)
  ⟨if q = [] then history else history ++ [writeLine q], effect.shell, effect.started,
    effect.ending⟩

def performAll : List (Host × Queue) → List CString → Shell → Talk
  | [], history, shell => ⟨history, shell, [], .returned ()⟩
  | (host, q) :: script, history, shell =>
    let done := perform host q history shell
    match done.ending with
    | .returned _ =>
      let rest := performAll script done.history done.shell
      { rest with started := done.started ++ rest.started }
    | _ => done

/-- The line of a call is written from a queue of commands that a line can hold; it is handed on as
it was typed, and `wordexp` removes the quotes. -/
structure Call.Writes (readline : Readline) (call : Call) (step : Host × Queue) : Prop where
  host : call.host = step.1
  line : call.line = writeLine step.2
  writable : ∀ cmd ∈ step.2, cmd.Writable
  connected : Connected step.2
  result : ∀ history, readline.result history call.line = 0
  text : ∀ history, readline.text history call.line = call.line
  reads : ∃ f, call.wordexp = (fun _ => f) ∧
    ∀ ws, (∀ w ∈ ws, Quotable w) → f (quotedLine ws) = some ws

/-- No alias has a name that begins with a quote. -/
def NoQuotedNames (st : Aliases) : Prop := ∀ k, st.find (39 :: k) = none

variable {readline : Readline} {call : Call} {step : Host × Queue} {shell : Shell} {st : Aliases}
  {key value word k : CString} {cmd : Command} {q : Queue}

/-! The names that written commands give to aliases do not begin with a quote. -/

theorem find_addAlias_of_ne (h : st.Valid) (hne : k ≠ key) (hnone : st.find k = none) :
    (addAlias st key value).find k = none := by
  rw [Aliases.find_eq_none_iff (addAlias_valid h key value)]
  rw [Aliases.find_eq_none_iff h] at hnone
  intro hk
  obtain ⟨e, he, hkey⟩ := List.mem_map.mp hk
  rcases mem_contents_addAlias h he with rfl | he
  · exact hne hkey.symm
  · exact hnone (hkey ▸ List.mem_map_of_mem he)

theorem key_ne_quote (hword : Quotable word) (hsplit : splitAtEquals word = some (key, value)) :
    39 :: k ≠ key := by
  rintro rfl
  rw [splitAtEquals_eq] at hsplit
  split at hsplit
  · cases hsplit
  · have hkey : Cut.before isEquals word = 39 :: k := (Prod.mk.inj (Option.some.inj hsplit)).1
    have hmem : 39 ∈ Cut.before isEquals word ++ Cut.onward isEquals word := by
      rw [hkey]
      exact List.mem_cons_self
    rw [Cut.before_append_onward] at hmem
    exact (hword.plain 39 hmem).2.1 rfl

theorem NoQuotedNames.carryOut (h : shell.Sound) (hnone : NoQuotedNames shell.aliases)
    (hq : ∀ cmd ∈ q, ∀ w ∈ cmd.argv.getD [], Quotable w) (host : Host) (i : Nat)
    (afterPipe : Bool) : NoQuotedNames (carryOut host shell i afterPipe q).shell.aliases := by
  rcases carryOut_shell host shell i afterPipe q with heq | ⟨cmd, hcmd, heq⟩
  · rwa [heq]
  · rw [heq]
    rcases executeCommand_shell host shell cmd with
      hsame | ⟨word, hmem, key, value, hsplit, hshell⟩ | ⟨key, hshell⟩
    · rwa [hsame]
    · rw [hshell]
      intro k
      exact find_addAlias_of_ne h.valid (key_ne_quote (hq cmd hcmd word hmem) hsplit) (hnone k)
    · rw [hshell]
      intro k
      change (removeAlias shell.aliases key).find (39 :: k) = none
      rw [find_removeAlias h.valid, hnone k, ite_self]

theorem Command.Writable.quotable (h : cmd.Writable) : ∀ w ∈ cmd.argv.getD [], Quotable w := by
  obtain ⟨words, _, hargv, _, hwords, _⟩ := h.argv
  rw [hargv]
  exact fun w hw => (hwords w hw).toQuotable

theorem quotable_numbered (hq : ∀ cmd ∈ q, cmd.Writable) :
    ∀ cmd ∈ numbered q, ∀ w ∈ cmd.argv.getD [], Quotable w := by
  intro cmd hcmd
  obtain ⟨i, hi, rfl⟩ := List.mem_mapIdx.mp hcmd
  exact (hq _ (List.getElem_mem hi)).quotable

/-! A line, and a session. -/

theorem tell_writes (h : call.Writes readline step) (hsound : shell.Sound)
    (hnone : NoQuotedNames shell.aliases) (history : List CString) :
    tell readline call history shell = perform step.1 step.2 history shell := by
  obtain ⟨f, hwordexp, hf⟩ := h.reads
  have hqueue : (interpretLine (fun _ => f) ⟨shell.aliases, [], 0⟩ (writeLine step.2)).queue =
      step.2.mapIdx fun i cmd => { cmd with addr := 0 + i } :=
    (interpretLine_writeLine (d := hsound.dictionary) hnone hf [] 0 h.writable h.connected).2
  simp only [Nat.zero_add] at hqueue
  have hresult := h.result history
  rw [tell, h.text history, if_neg (by omega), hwordexp, h.line, hqueue, h.host, perform]
  have hempty : numbered step.2 = [] ↔ step.2 = [] := List.mapIdx_eq_nil_iff
  change (⟨if numbered step.2 = [] then _ else _, _, _, _⟩ : Talk) = _
  simp only [hempty]
  rfl

theorem perform_sound (hsound : shell.Sound) (host : Host) (q : Queue) (history : List CString) :
    (perform host q history shell).shell.Sound := hsound.carryOut host (numbered q)

theorem perform_noQuotedNames (hsound : shell.Sound) (hnone : NoQuotedNames shell.aliases)
    (hq : ∀ cmd ∈ q, cmd.Writable) (host : Host) (history : List CString) :
    NoQuotedNames (perform host q history shell).shell.aliases :=
  hnone.carryOut hsound (quotable_numbered hq) host 0 false

/-- A session of written lines does what their queues say, one after another: the history, the
shell, the commands started and the end are the same. -/
theorem mainLoop_performs {calls : List Call} {script : List (Host × Queue)}
    (hcalls : List.Forall₂ (Call.Writes readline) calls script) (console : Console)
    (h : console.memory.shell.Sound) (hnone : NoQuotedNames console.memory.shell.aliases) :
    (mainLoop readline calls console).talk =
      performAll script console.history console.memory.shell := by
  induction hcalls generalizing console with
  | nil => rfl
  | @cons call step calls script hcall _ ih =>
    have hdone := (iteration_talk readline call h).trans (tell_writes hcall h hnone console.history)
    have hsound := perform_sound h step.1 step.2 console.history
    have hnames := perform_noQuotedNames h hnone hcall.writable step.1 console.history
    rw [mainLoop, performAll, ← hdone]
    rw [← hdone] at hsound hnames
    generalize iteration readline call console = done at hsound hnames
    obtain ⟨console', started, ending⟩ := done
    cases ending with
    | returned value =>
      have hrest := ih console' hsound hnames
      dsimp only [Iteration.talk] at hrest ⊢
      rw [← hrest]
    | exited => rfl
    | replaced => rfl
    | crashed => rfl

/-- `'pwd' ; 'ls' 'a b'<'in' | 'wc'>'out'`, without the blanks around the operators. -/
def counting : Queue :=
  [⟨7, some (bytes "pwd"), some [bytes "pwd"], none, none, .sequential⟩,
    ⟨8, some (bytes "ls"), some [bytes "ls", bytes "a b"], none, some (bytes "in"), .pipe⟩,
    ⟨9, some (bytes "wc"), some [bytes "wc"], some (bytes "out"), none, .none⟩]

theorem counting_writable : ∀ cmd ∈ counting, cmd.Writable := by
  have hls := (listing_writable _ (.head _)).reconnect 8 .pipe
  have hwc := (listing_writable _ (.tail _ (.head _))).reconnect 9 .none
  have hpwd := (listing_writable _ (.tail _ (.tail _ (.head _)))).reconnect 7 .sequential
  intro cmd hcmd
  simp only [counting, List.mem_cons, List.not_mem_nil, or_false] at hcmd
  rcases hcmd with rfl | rfl | rfl
  · exact hpwd
  · exact hls
  · exact hwc

theorem counting_connected : Connected counting := ⟨by decide, by decide, .inl rfl⟩

/-- The line of `counting`, on a system where nothing fails. -/
def countingCall : Call where
  line := writeLine counting
  plain := (interpretLine_writeLine (d := Dictionary.empty)
    (fun k => Dictionary.find_empty (39 :: k))
    (fun _ hws => shellWords_quotedLine hws) [] 0 counting_writable counting_connected).1
  wordexp := fun _ => shellWords false none
  host := willing
  stack := zeroStack

theorem mainLoop_performs_ls :
    (mainLoop .verbatim [countingCall] ⟨[], terminal.files, terminal.memory⟩).talk =
      performAll [(willing, counting)] [] terminal.memory.shell := by
  have hwrites : countingCall.Writes .verbatim (willing, counting) :=
    ⟨rfl, rfl, counting_writable, counting_connected, fun _ => rfl, fun _ => rfl, _, rfl,
      fun _ hws => shellWords_quotedLine hws⟩
  exact mainLoop_performs (.cons hwrites .nil) _
    ⟨Dictionary.empty.valid, Dictionary.empty.released⟩ fun k => Dictionary.find_empty (39 :: k)

end Redshell
