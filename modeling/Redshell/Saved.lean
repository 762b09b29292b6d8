import Redshell.AliasWalk
import Redshell.Alike
import Redshell.Quoting

/-! What `alias` lists, typed again after `alias`, defines the same aliases. -/
namespace Redshell

/-- The lines of a text; the last one ends in a newline too. -/
def textLines : List UInt8 → List CString
  | [] => []
  | c :: s =>
    if c = 10 then [] :: textLines s
    else
      match textLines s with
      | [] => [[c]]
      | line :: lines => (c :: line) :: lines

/-- The line that defines an alias. -/
def savedLine (key value : CString) : CString :=
  bytes "alias " ++ (key ++ bytes "='" ++ value ++ bytes "'")

/-- What `alias` lists, with `alias` before every line. -/
def savedLines (st : Aliases) : List CString :=
  (textLines (printAliases st)).map (bytes "alias " ++ ·)

/-- Letters, digits and `_`, `-`, `.`. -/
def isNameByte (c : UInt8) : Bool :=
  97 ≤ c && c ≤ 122 || 65 ≤ c && c ≤ 90 || 48 ≤ c && c ≤ 57 || c == 95 || c == 45 || c == 46

/-- An alias whose line is read as it was printed. -/
structure Savable (key value : CString) : Prop where
  name : ∀ c ∈ key, isNameByte c = true
  text : ∀ c ∈ value, c ≠ 0 ∧ c ≠ 39 ∧ c ≠ 10 ∧ isOperator c = false
  fits : (savedLine key value).length ≤ bufSize

/-- What `wordexp` does with such a line. -/
def ReadsSaved (wordexp : Wordexp) : Prop :=
  ∀ n key value, Savable key value →
    wordexp n (savedLine key value) = some [bytes "alias", key ++ 61 :: value]

/-- A map with definitions made one after another. -/
def defineAll (m : CString → Option CString) (entries : List (CString × CString)) :
    CString → Option CString :=
  entries.foldl (fun m e => Function.update m e.1 (some e.2)) m

variable {wordexp : Wordexp} {d : Dictionary} {ss : Session} {line key value k v : CString}
  {words : List CString} {st : Aliases} {shell : Shell} {readline : Readline} {call : Call}
  {m : CString → Option CString} {entries : List (CString × CString)} {cmd : Command}

/-! The lines of the listing. -/

theorem textLines_append (hline : 10 ∉ line) (s : List UInt8) :
    textLines (line ++ 10 :: s) = line :: textLines s := by
  induction line with
  | nil => rw [List.nil_append, textLines, if_pos rfl]
  | cons c line ih =>
    obtain ⟨hc, hline⟩ := not_or.mp (List.mem_cons.not.mp hline)
    rw [List.cons_append, textLines, if_neg (Ne.symm hc), ih hline]

theorem textLines_flatMap (hlines : ∀ line ∈ words, 10 ∉ line) :
    textLines (words.flatMap (· ++ [10])) = words := by
  induction words with
  | nil => rfl
  | cons line words ih =>
    obtain ⟨hline, hlines⟩ := List.forall_mem_cons.mp hlines
    rw [List.flatMap_cons, List.append_assoc, List.singleton_append, textLines_append hline,
      ih hlines]

theorem nameByte_spec : ∀ c : UInt8, isNameByte c = true →
    isOperator c = false ∧ classify c = .word ∧ isBlank c = false ∧ c ≠ 0 ∧ c ≠ 10 ∧ c ≠ 39 ∧
      c ≠ 61 := by
  decide +kernel

theorem savedLine_eq (key value : CString) :
    savedLine key value =
      bytes "alias" ++ (32 :: (key ++ (61 :: 39 :: (value ++ [39])))) := by
  have halias : bytes "alias " = bytes "alias" ++ [32] := by decide
  have hopen : bytes "='" = [61, 39] := by decide
  have hclose : bytes "'" = [39] := by decide
  rw [savedLine, halias, hopen, hclose]
  simp

/-- The lines of the listing define the entries of its walk. -/
theorem savedLines_eq (hwalk : ∀ e ∈ entries, Savable e.1 e.2)
    (hprinted : printAliases st =
      entries.flatMap fun e => e.1 ++ bytes "='" ++ e.2 ++ bytes "'\n") :
    savedLines st = entries.map fun e => savedLine e.1 e.2 := by
  have hclose : bytes "'\n" = bytes "'" ++ [10] := by decide
  have hlines : printAliases st =
      (entries.map fun e => e.1 ++ bytes "='" ++ e.2 ++ bytes "'").flatMap (· ++ [10]) := by
    rw [hprinted, List.flatMap_map, hclose]
    simp only [List.append_assoc]
  rw [savedLines, hlines, textLines_flatMap ?_, List.map_map]
  · rfl
  · rw [List.forall_mem_map]
    intro e he
    have hsavable := hwalk e he
    have hopen : bytes "='" = [61, 39] := by decide
    have hquote : bytes "'" = [39] := by decide
    rw [hopen, hquote]
    simp only [List.mem_append, List.mem_cons, List.not_mem_nil, or_false, not_or]
    refine ⟨⟨⟨fun hm => ?_, by decide, by decide⟩, fun hm => ?_⟩, by decide⟩
    · exact (nameByte_spec 10 (hsavable.name 10 hm)).2.2.2.2.1 rfl
    · exact (hsavable.text 10 hm).2.2.1 rfl

/-! One line. -/

theorem Savable.plain (h : Savable key value) :
    ∀ c ∈ savedLine key value, isOperator c = false ∧ c ≠ 0 := by
  intro c hc
  rw [savedLine_eq] at hc
  simp only [List.mem_append, List.mem_cons, List.not_mem_nil, or_false] at hc
  rcases hc with hc | rfl | hc | rfl | rfl | hc | rfl
  · have hall : ∀ c ∈ bytes "alias", isOperator c = false ∧ c ≠ 0 := by decide +kernel
    exact hall c hc
  · decide
  · obtain ⟨hop, _, _, hzero, _⟩ := nameByte_spec c (h.name c hc)
    exact ⟨hop, hzero⟩
  · decide
  · decide
  · obtain ⟨hzero, _, _, hop⟩ := h.text c hc
    exact ⟨hop, hzero⟩
  · decide

theorem Savable.isString (h : Savable key value) : IsString (savedLine key value) := by
  have hplain := h.plain
  rw [savedLine_eq] at hplain ⊢
  exact ⟨97, _, rfl, by decide, fun b hb =>
    isText_of_not_operator (hplain b (List.mem_cons_of_mem _ hb)).1
      (hplain b (List.mem_cons_of_mem _ hb)).2⟩

/-- A line of one `string` that no alias changes makes one command. -/
theorem interpretLine_string (hstring : IsString line) (hop : ∀ c ∈ line, isOperator c = false)
    (hd : ss.aliases = d.toAliases) (hlen : line.length ≤ bufSize)
    (hexpanded : (expandAlias d.toAliases line).1 = line)
    (hwords : wordexp ss.calls.length line = some words) :
    ∃ addr, (interpretLine wordexp ss line).queue =
      [⟨addr, words.head?, some words, none, none, .none⟩] := by
  have hsplit := splitLine_join (u := line) []
    (fun c hc => (isOperator_eq_false (hop c hc)).1) (by simp)
  rw [joinRest, List.flatMap_nil, List.append_nil] at hsplit
  obtain ⟨g, hscan, hw, hcomp, hrender, htextOf, hbackground⟩ := Complex.exists_of_isString hstring
  have hmask : g.mask = .none := by rw [Complex.mask, hbackground]
  have htext : expandedText d g.render = line := by
    rw [expandedText, Complex.commandText_render hw hcomp, htextOf, List.take_of_length_le hlen]
    exact hexpanded
  have hfin :=
    finish_spec wordexp { ss with created := ss.created + 1 } hd hw hcomp ss.created g.mask
  dsimp only at hfin
  rw [htext, hwords] at hfin
  obtain ⟨command, ss', hfin, _, _, _, haddr, hmask', hmade⟩ := hfin
  obtain ⟨words', hwords', hargv, hpath⟩ := hmade.words
  rw [htext, hwords, Option.some.injEq] at hwords'
  subst hwords'
  have hin : 60 ∉ line := fun hm => (isOperator_eq_false (hop 60 hm)).2.1 rfl
  have hout : 62 ∉ line := fun hm => (isOperator_eq_false (hop 62 hm)).2.2.1 rfl
  have hfrom := hmade.redirectFrom
  have hto := hmade.redirectTo
  rw [hrender, if_neg hin] at hfrom
  rw [hrender, if_neg hout] at hto
  refine ⟨ss.created, ?_⟩
  rw [interpretLine, hsplit, interpret_last hscan hcomp, hfin]
  obtain ⟨addr, path, argv, redirectTo, redirectFrom, mask⟩ := command
  dsimp only at haddr hmask' hargv hpath hfrom hto
  rw [haddr, hmask', hargv, hpath, hfrom, hto, hmask]
  rfl

theorem expandAlias_saved (h : Savable key value) (hnone : d.find (bytes "alias") = none) :
    (expandAlias d.toAliases (savedLine key value)).1 = savedLine key value := by
  obtain ⟨final, hrounds, hexp⟩ := expandAlias_spec d.valid d.released (savedLine key value)
  have halias : ∀ c ∈ bytes "alias", isBlank c = false := by decide +kernel
  have hword : Cut.before isBlank (savedLine key value) = bytes "alias" := by
    rw [savedLine_eq, Cut.before_append_of_none halias, Cut.before_cons_of_separator rfl,
      List.append_nil]
  rw [hword] at hrounds
  rw [hexp, copyBack_eq]
  cases hrounds with
  | done => rw [if_pos rfl, List.take_of_length_le h.fits]
  | again hv => cases hnone.symm.trans hv

theorem splitAtEquals_saved (h : Savable key value) :
    splitAtEquals (key ++ 61 :: v) = some (key, v) := by
  have hname : ∀ c ∈ key, isEquals c = false := by
    intro c hc
    have hne := (nameByte_spec c (h.name c hc)).2.2.2.2.2.2
    simpa [isEquals] using hne
  have honward : Cut.onward isEquals (key ++ 61 :: v) = 61 :: v := by
    rw [Cut.onward_append_of_none hname, Cut.onward_cons_of_separator (by decide)]
  rw [splitAtEquals_eq, honward, if_neg (List.cons_ne_nil 61 v), Cut.before_append_of_none hname,
    Cut.before_cons_of_separator (by decide), List.append_nil]
  rfl

theorem carryOut_saved (h : Savable key value) (host : Host) (shell : Shell) (addr : Nat) :
    let cmd : Command := ⟨addr, some (bytes "alias"), some [bytes "alias", key ++ 61 :: value],
      none, none, .none⟩
    carryOut host shell 0 false [cmd] =
      ⟨{ shell with aliases := addAlias shell.aliases key value }, [(none, 0, cmd)],
        .returned ()⟩ := by
  intro cmd
  have hfind : findBuiltin (bytes "alias") = some cmdAlias := rfl
  have hbuiltin : isBuiltin cmd.path = some true := rfl
  have hdone : executeCommand host shell cmd =
      .returned 0 { shell with aliases := addAlias shell.aliases key value } [] [] := by
    have hsplit := splitAtEquals_saved (v := value) h
    rw [executeCommand, executeBuiltinCommand, hfind, Option.map_some, cmdAlias, aliasWith, hsplit]
  rw [carryOut_last rfl rfl (by rintro ⟨⟩), hbuiltin, hdone]
  rfl

/-- The line that defines an alias does that, in the shell itself. -/
theorem tell_saved (h : Savable key value) (hline : call.line = savedLine key value)
    (hread : ReadsSaved call.wordexp) (hsound : shell.Sound)
    (hnone : shell.aliases.find (bytes "alias") = none) {history : List CString}
    (hresult : readline.result history call.line = 0)
    (htext : readline.text history call.line = call.line) :
    ∃ cmd, tell readline call history shell =
      ⟨history ++ [call.line], { shell with aliases := addAlias shell.aliases key value },
        [(none, 0, cmd)], .returned ()⟩ := by
  have halone : (expandAlias hsound.dictionary.toAliases (savedLine key value)).1 =
      savedLine key value := expandAlias_saved h hnone
  have hwords : call.wordexp (Session.calls ⟨shell.aliases, [], 0⟩).length (savedLine key value) =
      some [bytes "alias", key ++ 61 :: value] := hread 0 key value h
  obtain ⟨addr, hqueue⟩ := interpretLine_string h.isString (fun c hc => (h.plain c hc).1) rfl h.fits
    halone hwords
  have hcarried := carryOut_saved h call.host shell addr
  dsimp only at hcarried
  refine ⟨⟨addr, some (bytes "alias"), some [bytes "alias", key ++ 61 :: value], none, none,
    .none⟩, ?_⟩
  rw [tell, if_neg (by rw [hresult]; decide), htext, hline, hqueue]
  dsimp only [List.head?_cons]
  rw [hcarried, if_neg (List.cons_ne_nil _ _)]

/-! All the lines. -/

/-- The line is handed on as it was typed, and read as it was printed. -/
structure Call.Retypes (call : Call) (readline : Readline) : Prop where
  reads : ReadsSaved call.wordexp
  result : ∀ history, readline.result history call.line = 0
  text : ∀ history, readline.text history call.line = call.line

/-- The session ends with this map of aliases; the rest of the shell is as it was, and every command
was executed in the shell. -/
structure Talk.Restores (talk : Talk) (shell : Shell) (m : CString → Option CString) : Prop where
  cwd : talk.shell.cwd = shell.cwd
  env : talk.shell.env = shell.env
  find : talk.shell.aliases.find = m
  inShell : ∀ start ∈ talk.started, start.1 = none
  ending : talk.ending = .returned ()

theorem find_addAlias_update {n : Nat} (h : shell.Roomy (n + 1)) (key value : CString) :
    (addAlias shell.aliases key value).find =
      Function.update shell.aliases.find key (some value) := by
  funext k
  rw [find_addAlias h.valid (h.inserts key).1, Function.update_apply]

/-- The session of such lines makes their definitions one after another. -/
theorem mainLoop_defines {calls : List Call} {console : Console}
    (hlines : calls.map (·.line) = entries.map fun e => savedLine e.1 e.2)
    (hentries : ∀ e ∈ entries, Savable e.1 e.2 ∧ e.1 ≠ bytes "alias")
    (hcalls : ∀ call ∈ calls, call.Retypes readline)
    (hroom : console.memory.shell.Roomy entries.length)
    (hnone : console.memory.shell.aliases.find (bytes "alias") = none) :
    (mainLoop readline calls console).talk.Restores console.memory.shell
      (defineAll console.memory.shell.aliases.find entries) := by
  induction entries generalizing calls console with
  | nil =>
    rw [List.map_nil, List.map_eq_nil_iff] at hlines
    subst hlines
    exact ⟨rfl, rfl, rfl, by rintro _ ⟨⟩, rfl⟩
  | cons e entries ih =>
    obtain ⟨call, calls, rfl, hline, hlines⟩ := List.map_eq_cons_iff.mp hlines
    obtain ⟨⟨hsavable, hne⟩, hentries⟩ := List.forall_mem_cons.mp hentries
    obtain ⟨hcall, hcalls⟩ := List.forall_mem_cons.mp hcalls
    have hupdate := find_addAlias_update hroom e.1 e.2
    obtain ⟨cmd, htell⟩ := tell_saved hsavable hline hcall.reads hroom.toSound hnone
      (hcall.result console.history) (hcall.text console.history)
    have hdone := iteration_talk readline call hroom.toSound
    rw [htell] at hdone
    rw [mainLoop]
    generalize iteration readline call console = done at hdone
    obtain ⟨console', started, ending⟩ := done
    obtain ⟨hhistory, hshell, rfl, rfl⟩ := Talk.mk.inj hdone
    dsimp only at hhistory hshell
    have hroom' : console'.memory.shell.Roomy entries.length := by
      rw [hshell]
      exact hroom.addAlias e.1 e.2
    have hnone' : console'.memory.shell.aliases.find (bytes "alias") = none := by
      rw [hshell]
      dsimp only
      rw [hupdate, Function.update_of_ne (Ne.symm hne), hnone]
    obtain ⟨hcwd, henv, hfind, hinShell, hending⟩ := ih hlines hentries hcalls hroom' hnone'
    dsimp only
    refine ⟨hcwd.trans (by rw [hshell]), henv.trans (by rw [hshell]), ?_, ?_, hending⟩
    · rw [hshell] at hfind
      dsimp only at hfind
      rw [hupdate] at hfind
      exact hfind
    · exact List.forall_mem_cons.mpr ⟨rfl, hinShell⟩

theorem defineAll_of_not_mem (h : k ∉ entries.map (·.1)) : defineAll m entries k = m k := by
  induction entries generalizing m with
  | nil => rfl
  | cons e entries ih =>
    rw [List.map_cons, List.mem_cons, not_or] at h
    exact (ih h.2).trans (Function.update_of_ne h.1 _ _)

theorem defineAll_of_mem (hnodup : (entries.map (·.1)).Nodup) (h : (k, v) ∈ entries) :
    defineAll m entries k = some v := by
  induction entries generalizing m with
  | nil => cases h
  | cons e entries ih =>
    rw [List.map_cons, List.nodup_cons] at hnodup
    rcases List.mem_cons.mp h with rfl | h
    · exact (defineAll_of_not_mem hnodup.1).trans (Function.update_self ..)
    · exact ih hnodup.2 h

/-- The aliases that `alias` lists are defined again, in any shell where `alias` is none, when the
lines of the listing are typed after `alias`; the other aliases of that shell stay. -/
theorem mainLoop_restores {calls : List Call} {console : Console} (hst : st.Valid)
    (hsavable : ∀ k v, st.find k = some v → Savable k v)
    (hst_none : st.find (bytes "alias") = none)
    (hlines : calls.map (·.line) = savedLines st)
    (hcalls : ∀ call ∈ calls, call.Retypes readline)
    (hroom : console.memory.shell.Roomy calls.length)
    (hnone : console.memory.shell.aliases.find (bytes "alias") = none) :
    (mainLoop readline calls console).talk.Restores console.memory.shell
      fun k => (st.find k).or (console.memory.shell.aliases.find k) := by
  obtain ⟨_, _, honce, hlive, hprinted, _⟩ := walkedOnce_contents hst
  let pair := fun e : HashTableEntry CString Nat => (e.key, (st.heap e.value).value)
  have hmem : ∀ e ∈ st.table.contents.map pair, st.find e.1 = some e.2 := by
    rw [List.forall_mem_map]
    exact fun e he => (hlive _ _).mpr ⟨e, he, rfl, rfl⟩
  have hnodup : ((st.table.contents.map pair).map (·.1)).Nodup := by
    rw [List.map_map]
    exact honce
  have hsaved : savedLines st = (st.table.contents.map pair).map fun e => savedLine e.1 e.2 := by
    refine savedLines_eq (fun e he => hsavable e.1 e.2 (hmem e he)) ?_
    rw [hprinted, List.flatMap_map]
    rfl
  have hlength : calls.length = (st.table.contents.map pair).length := by
    have hlen := congrArg List.length (hlines.trans hsaved)
    rwa [List.length_map, List.length_map] at hlen
  rw [hlength] at hroom
  obtain ⟨hcwd, henv, hfind, hinShell, hending⟩ := mainLoop_defines (hlines.trans hsaved)
    (fun e he => ⟨hsavable e.1 e.2 (hmem e he), fun heq => by
      have hsome := hmem e he
      rw [heq, hst_none] at hsome
      cases hsome⟩) hcalls hroom hnone
  refine ⟨hcwd, henv, hfind.trans (funext fun k => ?_), hinShell, hending⟩
  cases hk : st.find k with
  | none =>
    refine defineAll_of_not_mem fun hm => ?_
    obtain ⟨e, he, rfl⟩ := List.mem_map.mp hm
    cases hk.symm.trans (hmem e he)
  | some v =>
    obtain ⟨e, he, rfl, hv⟩ := (hlive k v).mp hk
    exact defineAll_of_mem hnodup (hv ▸ List.mem_map_of_mem he)

/-! The `wordexp` that knows single quotes and blanks reads these lines. -/

theorem shellWords_plain {u : CString} (hu : ∀ c ∈ u, c ≠ 39 ∧ isBlank c = false) (w s : CString) :
    shellWords false (some w) (u ++ s) = shellWords false (some (w ++ u)) s := by
  induction u generalizing w with
  | nil => rw [List.nil_append, List.append_nil]
  | cons c u ih =>
    obtain ⟨⟨hquote, hblank⟩, hu⟩ := List.forall_mem_cons.mp hu
    rw [List.cons_append, shellWords, if_neg hquote, if_neg (by rw [hblank]; decide), ih hu,
      Option.getD_some, List.append_assoc, List.singleton_append]

theorem shellWords_start {u : CString} (hne : u ≠ []) (hu : ∀ c ∈ u, c ≠ 39 ∧ isBlank c = false)
    (s : CString) : shellWords false none (u ++ s) = shellWords false (some u) s := by
  obtain ⟨c, u, rfl⟩ := List.exists_cons_of_ne_nil hne
  obtain ⟨⟨hquote, hblank⟩, hu⟩ := List.forall_mem_cons.mp hu
  rw [List.cons_append, shellWords, if_neg hquote, if_neg (by rw [hblank]; decide),
    shellWords_plain hu]
  rfl

theorem shellWords_saved : ReadsSaved fun _ => shellWords false none := by
  intro n key value h
  have halias : ∀ c ∈ bytes "alias", c ≠ 39 ∧ isBlank c = false := by decide +kernel
  have hname : ∀ c ∈ key ++ [61], c ≠ 39 ∧ isBlank c = false := by
    intro c hc
    rcases List.mem_append.mp hc with hc | hc
    · obtain ⟨_, _, hblank, _, _, hquote, _⟩ := nameByte_spec c (h.name c hc)
      exact ⟨hquote, hblank⟩
    · rw [List.mem_singleton.mp hc]
      decide
  have hvalue : 39 ∉ value := fun hm => (h.text 39 hm).2.1 rfl
  have hsplit : key ++ (61 :: 39 :: (value ++ [39])) = (key ++ [61]) ++ 39 :: (value ++ [39]) := by
    simp
  have hrest : shellWords false none ((key ++ [61]) ++ 39 :: (value ++ [39])) =
      some [key ++ 61 :: value] := by
    rw [shellWords_start (by simp) hname, shellWords, if_pos rfl, Option.getD_some,
      shellWords_quoted hvalue, shellWords, if_pos rfl, shellWords]
    simp
  change shellWords false none (savedLine key value) = _
  rw [savedLine_eq, shellWords_start (by decide) halias, shellWords, if_neg (by decide),
    if_pos (by decide), hsplit, hrest]
  rfl

/-- `alias ll='ls -l'`. -/
def retyped : Call :=
  ⟨savedLine (bytes "ll") (bytes "ls -l"), by decide +kernel, fun _ => shellWords false none,
    willing, zeroStack⟩

/-- The listing of a dictionary with one alias, typed in another shell. -/
theorem mainLoop_restores_ll :
    (mainLoop .verbatim [retyped] ⟨[], terminal.files, terminal.memory⟩).talk.Restores
      terminal.memory.shell fun k =>
        ((Dictionary.empty.addAlias (bytes "ll") (bytes "ls -l")).find k).or
          (terminal.memory.shell.aliases.find k) := by
  have hfind := Dictionary.find_single (bytes "ll") (bytes "ls -l")
  refine mainLoop_restores (Dictionary.empty.addAlias (bytes "ll") (bytes "ls -l")).valid
    (fun k v hk => ?_) ?_ (by decide +kernel) ?_ (terminal_roomy (by decide))
    (Dictionary.find_empty _)
  · rw [hfind] at hk
    split at hk
    · next heq =>
      cases hk
      subst heq
      exact ⟨by decide +kernel, by decide +kernel, by decide⟩
    · cases hk
  · rw [hfind, if_neg (by decide)]
  · intro call hcall
    rw [List.mem_singleton.mp hcall]
    exact ⟨shellWords_saved, fun _ => rfl, fun _ => rfl⟩

end Redshell
