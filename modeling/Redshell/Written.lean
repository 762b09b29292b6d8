import Redshell.Quoting

/-! Lines written from a queue of commands, and the queue that is read from them. -/
namespace Redshell

/-- A word that single quotes hold on a line; they do not hide the operators of the grammar. -/
structure WritableWord (w : CString) : Prop extends Quotable w where
  plainly : ∀ c ∈ w, isOperator c = false

/-- A redirection as it is written. -/
def writePath (operator : UInt8) (path : Option CString) : CString :=
  path.elim [] fun p => operator :: quote p

/-- A command as it is written: its words and its paths in single quotes, and `&` at the end of one
in the background. -/
def Command.write (cmd : Command) : CString :=
  quotedLine (cmd.argv.getD []) ++ (writePath 60 cmd.redirectFromPath ++
    (writePath 62 cmd.redirectToPath ++ if cmd.connectionMask = .background then [38] else []))

/-- What follows a command that is not the last one. -/
def Command.connector (cmd : Command) : Connector :=
  if cmd.connectionMask = .pipe then .pipe else .seq

def writeLine : Queue → CString
  | [] => []
  | [cmd] => cmd.write
  | cmd :: next :: queue => cmd.write ++ cmd.connector.byte :: writeLine (next :: queue)

/-- A command that a line can hold: it has words, and they and its paths fit the buffers. -/
structure Command.Writable (cmd : Command) : Prop where
  argv : ∃ words, words ≠ [] ∧ cmd.argv = some words ∧ cmd.path = words.head? ∧
    (∀ w ∈ words, WritableWord w) ∧ (quotedLine words).length ≤ bufSize
  redirectFrom : ∀ p, cmd.redirectFromPath = some p → WritableWord p ∧ (quote p).length ≤ bufSize
  redirectTo : ∀ p, cmd.redirectToPath = some p → WritableWord p ∧ (quote p).length ≤ bufSize

/-- Only the last command is connected to nothing. -/
def Connected : Queue → Prop
  | [] => True
  | [cmd] => cmd.connectionMask = .none ∨ cmd.connectionMask = .background
  | cmd :: next :: queue => cmd.connectionMask ≠ .none ∧ Connected (next :: queue)

variable {d : Dictionary} {f : CString → Option (List CString)} {w s t u : CString}
  {words : List CString} {cmd next : Command} {q queue : Queue} {c : UInt8} {p : CString}

/-- The object and the connector of a command do not matter to whether a line can hold it. -/
theorem Command.Writable.reconnect (h : cmd.Writable) (addr : Nat) (mask : Connection) :
    ({ cmd with addr := addr, connectionMask := mask } : Command).Writable :=
  ⟨h.argv, h.redirectFrom, h.redirectTo⟩

/-! The complex that a command is written as. -/

theorem isString_quotedLine (hne : words ≠ []) (hwords : ∀ w ∈ words, WritableWord w) :
    IsString (quotedLine words) := by
  obtain ⟨w, ws, rfl⟩ := List.exists_cons_of_ne_nil hne
  obtain ⟨t, ht⟩ := quotedLine_cons w ws
  refine ⟨39, t, ht, by decide, fun b hb => ?_⟩
  have hb' : b ∈ quotedLine (w :: ws) := ht ▸ List.mem_cons_of_mem _ hb
  have hzero := quotedLine_ne_zero (fun v hv => (hwords v hv).toQuotable) b hb'
  rcases mem_quotedLine hb' with rfl | rfl | ⟨v, hv, hm⟩
  · exact isText_of_not_operator isOperator_quote hzero
  · exact isText_of_not_operator isOperator_space hzero
  · exact isText_of_not_operator ((hwords v hv).plainly b hm) hzero

theorem isString_quote (hp : WritableWord p) : IsString (quote p) :=
  isString_quotedLine (List.cons_ne_nil p []) fun _ hw =>
    List.mem_singleton.mp hw ▸ hp

/-- The parts of a command as it is written, the latest first. -/
def Command.parts (cmd : Command) : Part × List Part :=
  let words : Part := ⟨.command, [], quotedLine (cmd.argv.getD [])⟩
  match cmd.redirectFromPath, cmd.redirectToPath with
  | none, none => (words, [])
  | some p, none => (⟨.stdin, [], quote p⟩, [words])
  | none, some p => (⟨.stdout, [], quote p⟩, [words])
  | some p, some p' => (⟨.stdout, [], quote p'⟩, [⟨.stdin, [], quote p⟩, words])

def Command.complex (cmd : Command) : Complex where
  current := cmd.parts.1
  done := cmd.parts.2
  background := if cmd.connectionMask = .background then some [] else none

/-- What a command is written as. -/
structure Spells (g : Complex) (cmd : Command) : Prop where
  wellFormed : g.WellFormed
  complete : g.Complete
  render : g.render = cmd.write
  command : g.textOf .command = quotedLine (cmd.argv.getD [])
  stdin : g.textOf .stdin = cmd.redirectFromPath.elim [] quote
  stdout : g.textOf .stdout = cmd.redirectToPath.elim [] quote
  background : g.background.isSome ↔ cmd.connectionMask = .background

theorem Command.Writable.parts (h : cmd.Writable) :
    ∀ p ∈ cmd.complex.parts, p.gap = [] ∧ IsString p.text := by
  obtain ⟨words, hne, hargv, _, hwords, _⟩ := h.argv
  have hstring : IsString (quotedLine (cmd.argv.getD [])) := by
    rw [hargv]
    exact isString_quotedLine hne hwords
  rw [Complex.parts, Command.complex, Command.parts]
  cases hfrom : cmd.redirectFromPath with
  | none =>
    cases hto : cmd.redirectToPath with
    | none => simpa using hstring
    | some p => simpa using ⟨isString_quote (h.redirectTo p hto).1, hstring⟩
  | some p =>
    have hp := isString_quote (h.redirectFrom p hfrom).1
    cases hto : cmd.redirectToPath with
    | none => simpa using ⟨hp, hstring⟩
    | some p' => simpa using ⟨isString_quote (h.redirectTo p' hto).1, hp, hstring⟩

theorem IsString.ne_nil (h : IsString s) : s ≠ [] := by
  obtain ⟨c, t, rfl, _⟩ := h
  exact List.cons_ne_nil c t

theorem Command.Writable.spells (h : cmd.Writable) : Spells cmd.complex cmd := by
  have hparts := h.parts
  have hcomplete : cmd.complex.Complete := (hparts _ List.mem_cons_self).2.ne_nil
  have hwellFormed : cmd.complex.WellFormed := by
    refine ⟨fun p hp => by simp [(hparts p hp).1], fun p hp => .inr (hparts p hp).2,
      fun p hp => (hparts p (List.mem_cons_of_mem _ hp)).2.ne_nil, ?_, ?_⟩
    · rw [Complex.kinds, Complex.parts, Command.complex, Command.parts]
      cases cmd.redirectFromPath <;> cases cmd.redirectToPath <;> simp [Complex.orders]
    · intro trail htrail
      refine ⟨hcomplete, ?_⟩
      rw [Command.complex] at htrail
      dsimp only at htrail
      split at htrail
      · cases htrail
        simp
      · cases htrail
  refine ⟨hwellFormed, hcomplete, ?_, ?_, ?_, ?_, ?_⟩
  · rw [Complex.render, Complex.parts, Complex.tail, Command.complex, Command.parts, Command.write]
    cases cmd.redirectFromPath <;> cases cmd.redirectToPath <;>
      by_cases hmask : cmd.connectionMask = .background <;>
      simp [hmask, Part.render, Kind.operator, writePath]
  · rw [Complex.textOf, Complex.parts, Command.complex, Command.parts]
    cases cmd.redirectFromPath <;> cases cmd.redirectToPath <;> rfl
  · rw [Complex.textOf, Complex.parts, Command.complex, Command.parts]
    cases cmd.redirectFromPath <;> cases cmd.redirectToPath <;> rfl
  · rw [Complex.textOf, Complex.parts, Command.complex, Command.parts]
    cases cmd.redirectFromPath <;> cases cmd.redirectToPath <;> rfl
  · rw [Command.complex]
    dsimp only
    split
    · next hmask => simp [hmask]
    · next hmask => simp [hmask]

/-! The command that is read from it. -/

/-- A text in quotes is expanded to itself when no alias has a name that starts with a quote. -/
theorem expandAlias_quoted (hnone : ∀ k, d.find (39 :: k) = none)
    (hlen : (39 :: s).length ≤ bufSize) :
    (expandAlias d.toAliases (39 :: s)).1 = 39 :: s := by
  obtain ⟨final, hrounds, hexp⟩ := expandAlias_spec d.valid d.released (39 :: s)
  have hword : Cut.before isBlank ([39] ++ s) = [39] ++ Cut.before isBlank s :=
    Cut.before_append_of_none fun c hc => by rw [List.mem_singleton.mp hc]; rfl
  change Rounds _ _ _ (Cut.before isBlank ([39] ++ s)) _ at hrounds
  rw [hword] at hrounds
  rw [hexp, copyBack_eq]
  cases hrounds with
  | done => rw [if_pos rfl, List.take_of_length_le hlen]
  | again hv => cases (hnone _).symm.trans hv

theorem segmentPath_write (h : cmd.Writable)
    (hf : ∀ ws, (∀ w ∈ ws, Quotable w) → f (quotedLine ws) = some ws) {k : Kind}
    {path : Option CString} (hc : [c] = k.operator)
    (htext : cmd.complex.textOf k = path.elim [] quote)
    (hpath : ∀ p, path = some p → WritableWord p ∧ (quote p).length ≤ bufSize) :
    segmentPath f c cmd.write = path := by
  obtain ⟨hw, hcomp, hrender, _⟩ := h.spells
  have hmem := Complex.mem_render_iff hc hw hcomp
  have hkind : k ∈ cmd.complex.kinds ↔ path.isSome := by
    constructor
    · intro hk
      have hstring := hw.isString_textOf hcomp hk
      rw [htext] at hstring
      cases path with
      | none => exact absurd rfl hstring.ne_nil
      | some p => rfl
    · intro hsome
      obtain ⟨p, rfl⟩ := Option.isSome_iff_exists.mp hsome
      by_contra hk
      rw [Complex.textOf_of_not_mem hk] at htext
      cases htext
  rw [segmentPath, ← hrender]
  cases path with
  | none => exact if_neg fun hm => by simpa using hkind.mp (hmem.mp hm)
  | some p =>
    obtain ⟨hp, hlen⟩ := hpath p rfl
    have hk := hkind.mpr rfl
    have hread : f (quote p) = some [p] :=
      hf [p] fun w hw => List.mem_singleton.mp hw ▸ hp.toQuotable
    rw [if_pos (hmem.mpr hk), Complex.redirectText_render hc hw hcomp hk, htext, Option.elim_some,
      List.take_of_length_le hlen, hread]
    rfl

theorem amp_mem_write (h : cmd.Writable) : 38 ∈ cmd.write ↔ cmd.connectionMask = .background := by
  obtain ⟨hw, hcomp, hrender, _, _, _, hbackground⟩ := h.spells
  rw [← hrender, Complex.mem_amp_iff hw hcomp, hbackground]

/-- The command comes back, with the mask that is read from what follows it. -/
theorem segmentCommand_write (h : cmd.Writable) (hnone : ∀ k, d.find (39 :: k) = none)
    (hf : ∀ ws, (∀ w ∈ ws, Quotable w) → f (quotedLine ws) = some ws) {k : Option Connector}
    (hmask : segmentMask cmd.write k = cmd.connectionMask) (addr : Nat) :
    (f (expandedText d cmd.write)).isSome ∧
      segmentCommand d f addr (cmd.write, k) = { cmd with addr := addr } := by
  obtain ⟨words, hne, hargv, hpath, hwords, hlen⟩ := h.argv
  have hspells := h.spells
  have hexpanded : expandedText d cmd.write = quotedLine words := by
    rw [expandedText, ← hspells.render,
      Complex.commandText_render hspells.wellFormed hspells.complete, hspells.command, hargv,
      Option.getD_some, List.take_of_length_le hlen]
    obtain ⟨w, ws, rfl⟩ := List.exists_cons_of_ne_nil hne
    obtain ⟨t, ht⟩ := quotedLine_cons w ws
    rw [ht] at hlen ⊢
    exact expandAlias_quoted hnone hlen
  have hread := hf words fun w hw => (hwords w hw).toQuotable
  refine ⟨by rw [hexpanded, hread]; rfl, ?_⟩
  rw [segmentCommand]
  dsimp only
  rw [hexpanded, hread, hmask, segmentPath_write h hf rfl hspells.stdin h.redirectFrom,
    segmentPath_write h hf rfl hspells.stdout h.redirectTo, Option.getD_some, ← hargv, ← hpath]

/-! The line of a queue. -/

/-- The pieces after the first. -/
def writeRest : Command → Queue → List (Connector × CString)
  | _, [] => []
  | cmd, next :: queue => (cmd.connector, next.write) :: writeRest next queue

theorem writeLine_cons (cmd : Command) (queue : Queue) :
    writeLine (cmd :: queue) = cmd.write ++ joinRest (writeRest cmd queue) := by
  induction queue generalizing cmd with
  | nil => simp [writeLine, writeRest, joinRest]
  | cons next queue ih =>
    rw [writeLine, ih, writeRest]
    simp [joinRest]

theorem mem_writeRest {piece : Connector × CString} (h : piece ∈ writeRest cmd queue) :
    ∃ next ∈ queue, piece.2 = next.write := by
  induction queue generalizing cmd with
  | nil => cases h
  | cons next queue ih =>
    rcases List.mem_cons.mp h with rfl | h
    · exact ⟨next, List.mem_cons_self, rfl⟩
    · obtain ⟨later, hlater, heq⟩ := ih h
      exact ⟨later, List.mem_cons_of_mem _ hlater, heq⟩

theorem push_zero (g : Complex) : g.push 0 = none := by
  have hclass : classify 0 = .nul := rfl
  rw [Complex.push]
  cases g.background with
  | none => rw [hclass]
  | some trail => exact if_neg (by rw [hclass]; decide)

theorem complexRule_ne_zero (hu : u ∈ complexRule) : ∀ c ∈ u, c ≠ 0 := by
  obtain ⟨g, hg, _⟩ := mem_complexRule_iff_scan.mp hu
  clear hu
  generalize Complex.empty = start at hg
  induction u generalizing start with
  | nil => simp
  | cons c u ih =>
    rw [Complex.scan] at hg
    split at hg
    · next next hnext =>
      refine List.forall_mem_cons.mpr ⟨?_, ih next hg⟩
      rintro rfl
      cases (push_zero start).symm.trans hnext
    · cases hg

theorem complexes_ne_zero {rest : List (Connector × CString)} (hu : u ∈ complexRule)
    (hrest : ∀ p ∈ rest, p.2 ∈ complexRule) : ∀ c ∈ u ++ joinRest rest, c ≠ 0 := by
  intro c hc
  rcases List.mem_append.mp hc with hc | hc
  · exact complexRule_ne_zero hu c hc
  · obtain ⟨p, hp, hc⟩ := List.mem_flatMap.mp hc
    rcases List.mem_cons.mp hc with rfl | hc
    · cases p.1 <;> decide
    · exact complexRule_ne_zero (hrest p hp) c hc

theorem segmentMask_last (h : cmd.Writable) (hconnected : Connected [cmd]) :
    segmentMask cmd.write none = cmd.connectionMask := by
  change (if 38 ∈ cmd.write then Connection.background else .none) = _
  rcases hconnected with hmask | hmask
  · rw [if_neg (by rw [amp_mem_write h, hmask]; decide), hmask]
  · rw [if_pos ((amp_mem_write h).mpr hmask), hmask]

theorem segmentMask_connector (h : cmd.Writable) (hmask : cmd.connectionMask ≠ .none) :
    segmentMask cmd.write (some cmd.connector) = cmd.connectionMask := by
  have hamp := amp_mem_write h
  cases hcase : cmd.connectionMask with
  | none => exact absurd hcase hmask
  | pipe =>
    have hpipe : cmd.connector = .pipe := if_pos hcase
    rw [hpipe]
    exact if_neg (by rw [hamp, hcase]; decide)
  | background =>
    exact if_pos (hamp.mpr hcase)
  | sequential =>
    have hseq : cmd.connector = .seq := if_neg (by rw [hcase]; decide)
    rw [hseq]
    exact if_neg (by rw [hamp, hcase]; decide)

theorem attach_write (hq : ∀ each ∈ cmd :: queue, each.Writable)
    (hconnected : Connected (cmd :: queue)) (hnone : ∀ k, d.find (39 :: k) = none)
    (hf : ∀ ws, (∀ w ∈ ws, Quotable w) → f (quotedLine ws) = some ws) (created : Nat) :
    (∀ seg ∈ attach cmd.write (writeRest cmd queue), (f (expandedText d seg.1)).isSome) ∧
      ((attach cmd.write (writeRest cmd queue)).mapIdx fun i seg =>
        segmentCommand d f (created + i) seg) =
      (cmd :: queue).mapIdx fun i cmd => { cmd with addr := created + i } := by
  have hcmd := hq cmd List.mem_cons_self
  induction queue generalizing cmd created with
  | nil =>
    obtain ⟨hsome, hmade⟩ :=
      segmentCommand_write hcmd hnone hf (segmentMask_last hcmd hconnected) created
    refine ⟨fun seg hseg => ?_, ?_⟩
    · rw [List.mem_singleton.mp hseg]
      exact hsome
    · rw [writeRest, attach]
      simp [hmade]
  | cons next queue ih =>
    obtain ⟨hmask, hconnected⟩ := hconnected
    obtain ⟨hsome, hmade⟩ :=
      segmentCommand_write hcmd hnone hf (segmentMask_connector hcmd hmask) created
    have hq' : ∀ each ∈ next :: queue, each.Writable :=
      fun each hmem => hq each (List.mem_cons_of_mem _ hmem)
    obtain ⟨hsome', hmade'⟩ := ih hq' hconnected (created + 1) (hq' next List.mem_cons_self)
    rw [writeRest, attach]
    refine ⟨List.forall_mem_cons.mpr ⟨hsome, hsome'⟩, ?_⟩
    simp only [Nat.add_assoc, Nat.add_comm 1] at hmade'
    rw [List.mapIdx_cons, List.mapIdx_cons, hmade', Nat.add_zero, hmade]

/-! The `&` of a background command is never read as one before `|`. -/

theorem ampPipe_cons {c : UInt8} (h : AmpPipe (c :: s)) :
    (c = 38 ∧ ∃ blank b, (∀ c ∈ blank, classify c = .space) ∧ s = blank ++ 124 :: b) ∨
      AmpPipe s := by
  obtain ⟨a, blank, b, hblank, heq⟩ := h
  cases a with
  | nil =>
    obtain ⟨rfl, rfl⟩ := List.cons_eq_cons.mp heq
    exact .inl ⟨rfl, blank, b, hblank, rfl⟩
  | cons a as =>
    obtain ⟨-, rfl⟩ := List.cons_eq_cons.mp heq
    exact .inr ⟨as, blank, b, hblank, rfl⟩

theorem AmpPipe.of_append (h : AmpPipe (u ++ s)) (hu : 38 ∉ u) : AmpPipe s := by
  induction u with
  | nil => exact h
  | cons c u ih =>
    obtain ⟨hc, hu⟩ := not_or.mp (List.mem_cons.not.mp hu)
    rcases ampPipe_cons h with ⟨rfl, _⟩ | h
    · exact absurd rfl hc
    · exact ih h hu

theorem not_ampPipe_nil : ¬ AmpPipe [] := by
  rintro ⟨a, blank, b, _, h⟩
  simp at h

/-- A command is written without `&`, or with one at its end. -/
theorem write_amp (h : cmd.Writable) :
    38 ∉ cmd.write ∨ cmd.connectionMask = .background ∧ ∃ u, 38 ∉ u ∧ cmd.write = u ++ [38] := by
  by_cases hmask : cmd.connectionMask = .background
  · refine .inr ⟨hmask, ({ cmd with connectionMask := .none } : Command).write, ?_, ?_⟩
    · rw [amp_mem_write (h.reconnect cmd.addr .none)]
      rintro ⟨⟩
    · rw [Command.write, Command.write, if_pos hmask]
      simp
  · exact .inl fun hm => hmask ((amp_mem_write h).mp hm)

/-- Only `;` or nothing follows a command in the background. -/
theorem not_ampPipe (hq : ∀ each ∈ cmd :: queue, each.Writable) :
    ¬ AmpPipe (cmd.write ++ joinRest (writeRest cmd queue)) := by
  induction queue generalizing cmd with
  | nil =>
    rw [writeRest, joinRest, List.flatMap_nil, List.append_nil]
    intro h
    rcases write_amp (hq cmd List.mem_cons_self) with hamp | ⟨_, u, hu, heq⟩
    · exact not_ampPipe_nil (AmpPipe.of_append (by rwa [List.append_nil]) hamp)
    · rw [heq] at h
      rcases ampPipe_cons (h.of_append hu) with ⟨_, blank, b, _, hnil⟩ | h
      · simp at hnil
      · exact not_ampPipe_nil h
  | cons next queue ih =>
    have hrest := ih fun each hmem => hq each (List.mem_cons_of_mem _ hmem)
    have hjoin : joinRest (writeRest cmd (next :: queue)) =
        cmd.connector.byte :: (next.write ++ joinRest (writeRest next queue)) := by
      simp [writeRest, joinRest]
    have hbyte : cmd.connector.byte ≠ 38 := by
      cases cmd.connector <;> decide
    rw [hjoin]
    intro h
    rcases write_amp (hq cmd List.mem_cons_self) with hamp | ⟨hmask, u, hu, heq⟩
    · rcases ampPipe_cons (h.of_append hamp) with ⟨hc, _⟩ | h
      · exact hbyte hc
      · exact hrest h
    · have hseq : cmd.connector.byte = 59 := by
        rw [Command.connector, if_neg (by rw [hmask]; decide)]
        rfl
      rw [heq, List.append_assoc] at h
      rcases ampPipe_cons (h.of_append hu) with ⟨_, blank, b, hblank, hs⟩ | h
      · rw [hseq] at hs
        cases blank with
        | nil => cases hs
        | cons c blank =>
          obtain ⟨rfl, -⟩ := List.cons_eq_cons.mp hs
          exact absurd (hblank 59 List.mem_cons_self) (by decide)
      · rcases ampPipe_cons h with ⟨hc, _⟩ | h
        · exact hbyte hc
        · exact hrest h

/-! The round trip. -/

/-- A written line is interpreted as the queue it was written from. -/
theorem interpretLine_writeLine (hnone : ∀ k, d.find (39 :: k) = none)
    (hf : ∀ ws, (∀ w ∈ ws, Quotable w) → f (quotedLine ws) = some ws) (calls : List ExpandCall)
    (created : Nat) (hq : ∀ cmd ∈ q, cmd.Writable) (hconnected : Connected q) :
    (∀ c ∈ writeLine q, c ≠ 0) ∧
      (interpretLine (fun _ => f) ⟨d.toAliases, calls, created⟩ (writeLine q)).queue =
        q.mapIdx fun i cmd => { cmd with addr := created + i } := by
  cases q with
  | nil => exact ⟨by simp [writeLine], rfl⟩
  | cons cmd queue =>
    have hcomplex : ∀ each ∈ cmd :: queue, each.write ∈ complexRule := fun each hmem =>
      mem_complexRule.mpr ⟨each.complex, (hq each hmem).spells.wellFormed,
        (hq each hmem).spells.complete, (hq each hmem).spells.render⟩
    have hrest : ∀ p ∈ writeRest cmd queue, p.2 ∈ complexRule := by
      intro p hp
      obtain ⟨next, hnext, heq⟩ := mem_writeRest hp
      exact heq ▸ hcomplex next (List.mem_cons_of_mem _ hnext)
    have hsplit := splitLine_join (writeRest cmd queue)
      (complexRule_plain (hcomplex cmd List.mem_cons_self)) fun p hp =>
        complexRule_plain (hrest p hp)
    obtain ⟨hsome, hmade⟩ := attach_write hq hconnected hnone hf created
    obtain ⟨ss', hrun⟩ := interpret_accepted true queueNew ⟨d.toAliases, calls, created⟩
      (hcomplex cmd List.mem_cons_self) hrest (not_ampPipe hq) rfl hsome
    rw [interpretLine, writeLine_cons, hsplit, hrun]
    exact ⟨complexes_ne_zero (hcomplex cmd List.mem_cons_self) hrest, hmade⟩

/-- Every queue of commands that a line can hold is what its line is read as: the words, the paths
and the masks come back, and each command is a new one. -/
theorem parseInput_writeLine (hnone : ∀ k, d.find (39 :: k) = none)
    (hf : ∀ ws, (∀ w ∈ ws, Quotable w) → f (quotedLine ws) = some ws) (calls : List ExpandCall)
    (created : Nat) (q : Queue) (hq : ∀ cmd ∈ q, cmd.Writable) (hconnected : Connected q) :
    ∃ r, parseInput (fun _ => f) ⟨d.toAliases, calls, created⟩ (writeLine q) = .ok r ∧
      r.queue = q.mapIdx fun i cmd => { cmd with addr := created + i } := by
  obtain ⟨hzero, hmade⟩ := interpretLine_writeLine hnone hf calls created hq hconnected
  obtain ⟨r, hr, hqueue, _⟩ := parseInput_spec (fun _ => f) ⟨d.toAliases, calls, created⟩ hzero
  exact ⟨r, hr, hqueue.trans hmade⟩

/-- `'ls' 'a b'<'in' | 'wc'>'out' ; 'pwd' &`, without the blanks around the operators. -/
def listing : Queue :=
  [⟨7, some (bytes "ls"), some [bytes "ls", bytes "a b"], none, some (bytes "in"), .pipe⟩,
    ⟨8, some (bytes "wc"), some [bytes "wc"], some (bytes "out"), none, .sequential⟩,
    ⟨9, some (bytes "pwd"), some [bytes "pwd"], none, none, .background⟩]

theorem writableWord {w : CString} (hne : w ≠ [])
    (hw : ∀ c ∈ w, c ≠ 0 ∧ c ≠ 39 ∧ c ≠ 10 ∧ isOperator c = false) : WritableWord w :=
  ⟨⟨hne, fun c hc => ⟨(hw c hc).1, (hw c hc).2.1, (hw c hc).2.2.1⟩⟩, fun c hc => (hw c hc).2.2.2⟩

theorem listing_writable : ∀ cmd ∈ listing, cmd.Writable := by
  have hls : WritableWord (bytes "ls") := writableWord (by decide) (by decide +kernel)
  have hab : WritableWord (bytes "a b") := writableWord (by decide) (by decide +kernel)
  have hin : WritableWord (bytes "in") := writableWord (by decide) (by decide +kernel)
  have hwc : WritableWord (bytes "wc") := writableWord (by decide) (by decide +kernel)
  have hout : WritableWord (bytes "out") := writableWord (by decide) (by decide +kernel)
  have hpwd : WritableWord (bytes "pwd") := writableWord (by decide) (by decide +kernel)
  intro cmd hcmd
  simp only [listing, List.mem_cons, List.not_mem_nil, or_false] at hcmd
  rcases hcmd with rfl | rfl | rfl
  · refine ⟨⟨_, List.cons_ne_nil _ _, rfl, rfl, ?_, by decide⟩, ?_, by rintro p ⟨⟩⟩
    · exact List.forall_mem_cons.mpr ⟨hls, List.forall_mem_singleton.mpr hab⟩
    · rintro p ⟨⟩
      exact ⟨hin, by decide⟩
  · refine ⟨⟨_, List.cons_ne_nil _ _, rfl, rfl, ?_, by decide⟩, by rintro p ⟨⟩, ?_⟩
    · exact List.forall_mem_singleton.mpr hwc
    · rintro p ⟨⟩
      exact ⟨hout, by decide⟩
  · refine ⟨⟨_, List.cons_ne_nil _ _, rfl, rfl, ?_, by decide⟩, by rintro p ⟨⟩, by rintro p ⟨⟩⟩
    exact List.forall_mem_singleton.mpr hpwd

theorem listing_connected : Connected listing := ⟨by decide, by decide, .inr rfl⟩

theorem parseInput_writeLine_ls :
    ∃ r, parseInput (fun _ => shellWords false none) ⟨Dictionary.empty.toAliases, [], 3⟩
        (writeLine listing) = .ok r ∧
      r.queue = listing.mapIdx fun i cmd => { cmd with addr := 3 + i } :=
  parseInput_writeLine (fun k => Dictionary.find_empty (39 :: k))
    (fun _ hws => shellWords_quotedLine hws) [] 3 listing listing_writable listing_connected

end Redshell
