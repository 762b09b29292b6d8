import Redshell.Accepted

/-! Two lines joined by a connector, and what is read from the two. -/
namespace Redshell

/-- The mask of a command once the connector follows it. -/
def Connector.connect : Connector → Connection → Connection
  | seq, mask => if mask ≠ .background then .sequential else mask
  | pipe, _ => .pipe

/-- A queue whose last command the connector follows. -/
def connectLast (k : Connector) : Queue → Queue
  | [] => []
  | [cmd] => [{ cmd with connectionMask := k.connect cmd.connectionMask }]
  | cmd :: next :: queue => cmd :: connectLast k (next :: queue)

/-- A run whose queue held other commands before. -/
def Verdict.after (v : Verdict) (q : Queue) : Verdict :=
  match v with
  | accepted queue ss => accepted (q ++ queue) ss
  | aborted queue ss => aborted (q ++ queue) ss
  | rejected ss => rejected ss

variable {wordexp : Wordexp} {d : Dictionary} {ss ss' : Session} {g : Complex} {addr n : Nat}
  {mask : Connection} {pending : Option Pending} {c : UInt8} {u v l₁ l₂ : CString} {first : Bool}
  {queue q made : Queue} {rest : List (Connector × CString)} {k : Connector} {cmd : Command}

theorem Connector.mask_eq (k : Connector) (g : Complex) : k.mask g = k.connect g.mask := by
  cases k <;> rfl

theorem connectLast_cons (k : Connector) (cmd : Command) (hne : q ≠ []) :
    connectLast k (cmd :: q) = cmd :: connectLast k q := by
  cases q with
  | nil => exact absurd rfl hne
  | cons next q => rfl

/-! The queue before a run is not looked at. -/

theorem readPiece_after {next : Complex → Nat → Queue → Session → Verdict}
    (hnext : ∀ g addr queue ss, next g addr (q ++ queue) ss = (next g addr queue ss).after q) :
    readPiece wordexp pending c u (q ++ queue) ss next =
      (readPiece wordexp pending c u queue ss next).after q := by
  rw [readPiece, readPiece]
  cases Complex.empty.push c with
  | none => rfl
  | some g =>
    dsimp only
    obtain ⟨done, ss'⟩ := flush wordexp pending ss
    cases done with
    | none => rfl
    | some done =>
      dsimp only
      cases g.scan u with
      | none => rfl
      | some g =>
        dsimp only
        rw [List.append_assoc]
        exact hnext g _ _ _

theorem endLine_after :
    endLine wordexp first g addr (q ++ queue) ss =
      (endLine wordexp first g addr queue ss).after q := by
  rw [endLine, endLine]
  split
  · obtain ⟨done, ss'⟩ := g.finish wordexp addr g.mask ss
    cases done with
    | none => rfl
    | some cmd =>
      dsimp only [Verdict.after, queueInsert]
      rw [List.append_assoc]
  · split <;> rfl

theorem interpret_after (rest : List (Connector × CString)) :
    interpret wordexp rest first pending u (q ++ queue) ss =
      (interpret wordexp rest first pending u queue ss).after q := by
  induction rest generalizing first pending u queue ss with
  | nil =>
    cases u with
    | nil => cases first <;> rfl
    | cons c u => exact readPiece_after fun g addr queue ss => endLine_after
  | cons p rest ih =>
    cases u with
    | nil => rfl
    | cons c u =>
      refine readPiece_after fun g addr queue ss => ?_
      split
      · exact ih
      · rfl

/-- A piece that is a complex is read alike at the start of a line and after a connector. -/
theorem interpret_first (hu : u ∈ complexRule) :
    interpret wordexp rest false none u queue ss = interpret wordexp rest true none u queue ss := by
  obtain ⟨g, hg, hcomp⟩ := mem_complexRule_iff_scan.mp hu
  cases rest with
  | nil => rw [interpret_last hg hcomp, interpret_last hg hcomp]
  | cons p rest => rw [interpret_cons p.1 hg hcomp, interpret_cons p.1 hg hcomp]

/-- The mask is not looked at before the command is made. -/
theorem finish_connected (mask mask' : Connection) :
    g.finish wordexp addr mask' ss =
      ((g.finish wordexp addr mask ss).1.map fun cmd => { cmd with connectionMask := mask' },
        (g.finish wordexp addr mask ss).2) := by
  dsimp only [Complex.finish]
  obtain ⟨tmp, ss⟩ := expandAliasIn ((g.textOf .command).take bufSize) ss
  dsimp only
  obtain ⟨words, ss⟩ := expandGlob wordexp tmp ss
  cases words <;> rfl

theorem splitLine_joined (k : Connector) (l₁ l₂ : CString) :
    splitLine (l₁ ++ k.byte :: l₂) =
      ((splitLine l₁).1, (splitLine l₁).2 ++ (k, (splitLine l₂).1) :: (splitLine l₂).2) := by
  induction l₁ with
  | nil => cases k <;> rfl
  | cons c l₁ ih =>
    rw [List.cons_append, splitLine, splitLine, ih]
    cases findConnector c <;> rfl

/-- A run over pieces that are complexes, none of whose expansions fails, queues commands; with more
pieces after a connector it goes on from there, the connector after its last command. -/
theorem interpret_joined (first : Bool) (queue : Queue) (rest : List (Connector × CString))
    (hd : ss.aliases = d.toAliases)
    (hcomplex : ∀ v ∈ u :: rest.map (·.2), v ∈ complexRule)
    (hok : ∀ i, ¬ FailsAt wordexp d ss.calls.length (u :: rest.map (·.2)) i) (k : Connector) :
    ∃ made ss', made ≠ [] ∧ ss'.aliases = d.toAliases ∧
      (interpret wordexp rest first none u queue ss).queue = queue ++ made ∧
      (interpret wordexp rest first none u queue ss).session = ss' ∧
      ∀ v more, v ∈ complexRule →
        interpret wordexp (rest ++ (k, v) :: more) first none u queue ss =
          interpret wordexp more false none v (queue ++ connectLast k made) ss' := by
  have hopens : ∀ {v : CString}, v ∈ complexRule → opens v = true := by
    intro v hv
    obtain ⟨g, hg, hcomp⟩ := mem_complexRule_iff_scan.mp hv
    exact opens_of_scan hg hcomp
  induction rest generalizing first u queue ss with
  | nil =>
    obtain ⟨g, hg, hcomp⟩ := mem_complexRule_iff_scan.mp (hcomplex u List.mem_cons_self)
    obtain ⟨hr, hw⟩ := Complex.scan_render Complex.wellFormed_empty hg
    obtain rfl : g.render = u := hr
    rcases hfin : g.finish wordexp ss.created g.mask { ss with created := ss.created + 1 } with
      ⟨_ | cmd, ss'⟩
    · exact absurd (failsAt_zero.mpr (finish_none hfin hd hw hcomp)) (hok 0)
    · have hmask := finish_mask hfin
      refine ⟨[cmd], ss', List.cons_ne_nil cmd [], (finish_some hfin hd hw hcomp).1, ?_, ?_,
        fun v more hv => ?_⟩
      · rw [interpret_last hg hcomp, hfin]
        rfl
      · rw [interpret_last hg hcomp, hfin]
        rfl
      · rw [List.nil_append, interpret_cons k hg hcomp, if_pos (hopens hv),
          finish_connected g.mask, hfin, k.mask_eq, ← hmask]
        rfl
  | cons p rest ih =>
    obtain ⟨k', u'⟩ := p
    obtain ⟨g, hg, hcomp⟩ := mem_complexRule_iff_scan.mp (hcomplex u List.mem_cons_self)
    obtain ⟨hr, hw⟩ := Complex.scan_render Complex.wellFormed_empty hg
    obtain rfl : g.render = u := hr
    have hu' : u' ∈ complexRule := hcomplex u' (List.mem_cons_of_mem _ List.mem_cons_self)
    rcases hfin : g.finish wordexp ss.created (k'.mask g) { ss with created := ss.created + 1 } with
      ⟨_ | cmd, ss₁⟩
    · exact absurd (failsAt_zero.mpr (finish_none hfin hd hw hcomp)) (hok 0)
    · obtain ⟨hd₁, hcalls, _⟩ := finish_some hfin hd hw hcomp
      have hok₁ : ∀ i, ¬ FailsAt wordexp d ss₁.calls.length (u' :: rest.map (·.2)) i := by
        intro i hi
        rw [hcalls] at hi
        exact hok (i + 1) (failsAt_succ.mpr hi)
      obtain ⟨made, ss', hne, hd', hqueue, hsession, hjoined⟩ := ih false
        (queueInsert queue cmd) hd₁ (fun v hv => hcomplex v (List.mem_cons_of_mem _ hv)) hok₁
      refine ⟨cmd :: made, ss', List.cons_ne_nil _ _, hd', ?_, ?_, fun v more hv => ?_⟩
      · rw [interpret_cons k' hg hcomp, if_pos (hopens hu'), hfin]
        dsimp only
        rw [hqueue, queueInsert, List.append_assoc]
        rfl
      · rw [interpret_cons k' hg hcomp, if_pos (hopens hu'), hfin]
        exact hsession
      · rw [List.cons_append, interpret_cons k' hg hcomp, if_pos (hopens hu'), hfin]
        dsimp only
        rw [hjoined v more hv, queueInsert, List.append_assoc, connectLast_cons k cmd hne]
        rfl

/-- Joined to another line, a line of complexes none of whose expansions fails keeps its commands,
the connector after the last of them, and those of the other line come after them; but a line that
is no line of the grammar takes them away. -/
theorem parseInput_joined (wordexp : Wordexp) (d : Dictionary) (calls : List ExpandCall)
    (created : Nat) (hl₁ : ∀ c ∈ l₁, c ≠ 0) (hl₂ : ∀ c ∈ l₂, c ≠ 0) (k : Connector)
    (hcomplex : ∀ u ∈ texts l₁, u ∈ complexRule)
    (hok : ∀ i, ¬ FailsAt wordexp d calls.length (texts l₁) i)
    (hstart : (splitLine l₂).1 ∈ complexRule) :
    ∃ r₁ r₂ r, parseInput wordexp ⟨d.toAliases, calls, created⟩ l₁ = .ok r₁ ∧
      parseInput wordexp r₁.session l₂ = .ok r₂ ∧
      parseInput wordexp ⟨d.toAliases, calls, created⟩ (l₁ ++ k.byte :: l₂) = .ok r ∧
      r.session = r₂.session ∧ (r.cs = parserError ↔ r₂.cs = parserError) ∧
      r.queue = if r₂.cs = parserError then [] else connectLast k r₁.queue ++ r₂.queue := by
  have hjoin : ∀ c ∈ l₁ ++ k.byte :: l₂, c ≠ 0 := by
    intro c hc
    rcases List.mem_append.mp hc with hc | hc
    · exact hl₁ c hc
    · rcases List.mem_cons.mp hc with rfl | hc
      · cases k <;> decide
      · exact hl₂ c hc
  have hd : Session.aliases ⟨d.toAliases, calls, created⟩ = d.toAliases := rfl
  obtain ⟨made, ss', _, hd', hqueue, hsession, hjoined⟩ :=
    interpret_joined true queueNew (splitLine l₁).2 hd hcomplex hok k
  obtain ⟨r₁, hr₁, hqueue₁, hsession₁, _⟩ :=
    parseInput_spec wordexp ⟨d.toAliases, calls, created⟩ hl₁
  obtain ⟨r₂, hr₂, hqueue₂, hsession₂, hcs₂⟩ := parseInput_spec wordexp r₁.session hl₂
  obtain ⟨r, hr, hqueueᵣ, hsessionᵣ, hcs⟩ :=
    parseInput_spec wordexp ⟨d.toAliases, calls, created⟩ hjoin
  have hr₁' : r₁.session = ss' := hsession₁.trans hsession
  have hboth : interpretLine wordexp ⟨d.toAliases, calls, created⟩ (l₁ ++ k.byte :: l₂) =
      (interpretLine wordexp r₁.session l₂).after (connectLast k r₁.queue) := by
    have hmade : r₁.queue = made := hqueue₁.trans hqueue
    have hqueue : queueNew ++ connectLast k made = connectLast k made ++ queueNew :=
      (List.append_nil _).symm
    rw [interpretLine, splitLine_joined, hjoined _ _ hstart, interpret_first hstart, hr₁', hmade,
      hqueue]
    exact interpret_after _
  refine ⟨r₁, r₂, r, hr₁, hr₂, hr, ?_, ?_, ?_⟩
  · rw [hsessionᵣ, hsession₂, hboth]
    cases interpretLine wordexp r₁.session l₂ <;> rfl
  · rw [hcs, hcs₂, hboth]
    cases interpretLine wordexp r₁.session l₂ <;> rfl
  · rw [hqueueᵣ, hqueue₂, hboth]
    cases hv : interpretLine wordexp r₁.session l₂ with
    | accepted queue ss =>
      rw [hv] at hcs₂
      rw [if_neg fun herror => Bool.false_ne_true (hcs₂.mp herror)]
      rfl
    | aborted queue ss =>
      rw [hv] at hcs₂
      rw [if_neg fun herror => Bool.false_ne_true (hcs₂.mp herror)]
      rfl
    | rejected ss =>
      rw [hv] at hcs₂
      rw [if_pos (hcs₂.mpr rfl)]
      rfl

/-- `ls<in` and `wc|sort`, joined by `|`. -/
theorem parseInput_joined_ls :
    ∃ r₁ r₂ r, parseInput (fun _ text => some [text]) ⟨Dictionary.empty.toAliases, [], 0⟩
        (bytes "ls<in") = .ok r₁ ∧
      parseInput (fun _ text => some [text]) r₁.session (bytes "wc|sort") = .ok r₂ ∧
      parseInput (fun _ text => some [text]) ⟨Dictionary.empty.toAliases, [], 0⟩
        (bytes "ls<in" ++ Connector.pipe.byte :: bytes "wc|sort") = .ok r ∧
      r.session = r₂.session ∧ (r.cs = parserError ↔ r₂.cs = parserError) ∧
      r.queue = if r₂.cs = parserError then [] else connectLast .pipe r₁.queue ++ r₂.queue := by
  have hok : ∀ i, ¬ FailsAt (fun _ text => some [text]) Dictionary.empty
      ([] : List ExpandCall).length (texts (bytes "ls<in")) i := by
    rintro i ⟨v, _, hv⟩
    cases hv
  exact parseInput_joined _ _ [] 0 (by decide +kernel) (by decide +kernel) .pipe
    (by decide +kernel) hok (by decide +kernel)

end Redshell
