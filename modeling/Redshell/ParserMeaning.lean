import Redshell.AliasMap
import Redshell.Segment

/-! The commands that a line's segments make, and the lines whose expansions fail. -/
namespace Redshell

/-! The command of one complex. -/

variable {wordexp : Wordexp} {ss ss' : Session} {g : Complex} {k : Kind} {c : UInt8}
  {u v : CString} {queue : Queue} {first : Bool} {addr : Nat} {mask : Connection}
  {d : Dictionary} {f : CString → Option (List CString)} {rest : List (Connector × CString)}

theorem expandAliasIn_eq (hd : ss.aliases = d.toAliases) (text : CString) :
    expandAliasIn text ss = ((expandAlias d.toAliases text).1, ss) := by
  obtain ⟨aliases, calls, created⟩ := ss
  obtain rfl : aliases = d.toAliases := hd
  rw [expandAliasIn, expandAlias_snd d.valid d.released]

/-- An expansion enters its call and changes nothing else. -/
theorem expandPart_snd (text : CString) :
    (expandPart wordexp text ss).2.aliases = ss.aliases ∧
      (expandPart wordexp text ss).2.created = ss.created ∧
      (expandPart wordexp text ss).2.calls.length =
        ss.calls.length + if text = [] then 0 else 1 := by
  rw [expandPart]
  split
  · exact ⟨rfl, rfl, rfl⟩
  · exact ⟨rfl, rfl, rfl⟩

theorem expandPart_fst (text : CString) :
    (expandPart wordexp text ss).1 =
      if text = [] then none else singleWord (wordexp ss.calls.length text) := by
  rw [expandPart]
  split <;> rfl

/-- A part is there when its operator is. -/
theorem take_textOf_eq_nil_iff (hc : [c] = k.operator) (hw : g.WellFormed) (hcomp : g.Complete) :
    (g.textOf k).take bufSize = [] ↔ c ∉ g.render := by
  rw [Complex.mem_render_iff hc hw hcomp]
  constructor
  · intro hnil hk
    obtain ⟨a, t, ht, _⟩ := hw.isString_textOf hcomp hk
    simp [ht, bufSize] at hnil
  · intro hk
    rw [Complex.textOf_of_not_mem hk, List.take_nil]

/-- The path of a redirection comes from the text after its operator. -/
theorem expandPart_render (hc : [c] = k.operator) (hw : g.WellFormed) (hcomp : g.Complete) :
    (expandPart wordexp ((g.textOf k).take bufSize) ss).1 =
      if c ∈ g.render then singleWord (wordexp ss.calls.length (redirectText c g.render))
      else none := by
  have hnil := take_textOf_eq_nil_iff hc hw hcomp
  rw [expandPart_fst]
  by_cases hm : c ∈ g.render
  · have hk := (Complex.mem_render_iff hc hw hcomp).mp hm
    rw [if_pos hm, if_neg fun h => hnil.mp h hm, Complex.redirectText_render hc hw hcomp hk]
  · rw [if_neg hm, if_pos (hnil.mpr hm)]

/-- The command of a segment, made with the `wordexp` calls from a number on. -/
structure SegmentMade (wordexp : Wordexp) (d : Dictionary) (n : Nat) (u : CString)
    (command : Command) : Prop where
  words : ∃ words, wordexp n (expandedText d u) = some words ∧ command.argv = some words ∧
    command.path = words.head?
  redirectFrom : command.redirectFromPath =
    if 60 ∈ u then singleWord (wordexp (n + 1) (redirectText 60 u)) else none
  redirectTo : command.redirectToPath =
    if 62 ∈ u then
      singleWord (wordexp (n + 1 + if 60 ∈ u then 1 else 0) (redirectText 62 u))
    else none

/-- One expansion of the command text decides, and one more is made for each redirection. -/
theorem finish_spec (wordexp : Wordexp) (ss : Session) (hd : ss.aliases = d.toAliases)
    (hw : g.WellFormed) (hcomp : g.Complete) (addr : Nat) (mask : Connection) :
    match wordexp ss.calls.length (expandedText d g.render) with
    | none => ∃ ss', g.finish wordexp addr mask ss = (none, ss')
    | some _ => ∃ command ss', g.finish wordexp addr mask ss = (some command, ss') ∧
        ss'.aliases = d.toAliases ∧ ss'.created = ss.created ∧
        ss'.calls.length = ss.calls.length + callCount g.render ∧
        command.addr = addr ∧ command.connectionMask = mask ∧
        SegmentMade wordexp d ss.calls.length g.render command := by
  have htext := Complex.commandText_render hw hcomp
  have hin : [60] = Kind.stdin.operator := rfl
  have hout : [62] = Kind.stdout.operator := rfl
  have htmp := expandAliasIn_eq hd ((g.textOf .command).take bufSize)
  rw [← htext, ← expandedText] at htmp
  cases hwords : wordexp ss.calls.length (expandedText d g.render) with
  | none =>
    refine ⟨{ ss with calls := ⟨true, expandedText d g.render, none⟩ :: ss.calls }, ?_⟩
    dsimp only [Complex.finish]
    rw [← htext, htmp]
    dsimp only [expandGlob, callWordexp]
    rw [hwords]
  | some words =>
    have hfinish : g.finish wordexp addr mask ss =
        (let called : Session :=
            { ss with calls := ⟨true, expandedText d g.render, some words⟩ :: ss.calls }
          let stdin := expandPart wordexp ((g.textOf .stdin).take bufSize) called
          let stdout := expandPart wordexp ((g.textOf .stdout).take bufSize) stdin.2
          (some ⟨addr, words.head?, some words, stdout.1, stdin.1, mask⟩, stdout.2)) := by
      dsimp only [Complex.finish]
      rw [← htext, htmp]
      dsimp only [expandGlob, callWordexp]
      rw [hwords]
    have hcalls : ∀ text ss', (expandPart wordexp text ss').2.calls.length =
        ss'.calls.length + if text = [] then 0 else 1 := fun text ss' =>
      (expandPart_snd text).2.2
    refine ⟨_, _, hfinish, ?_, ?_, ?_, rfl, rfl, ⟨words, hwords, rfl, rfl⟩, ?_, ?_⟩
    · rw [(expandPart_snd _).1, (expandPart_snd _).1]
      exact hd
    · rw [(expandPart_snd _).2.1, (expandPart_snd _).2.1]
    · rw [hcalls, hcalls, List.length_cons, callCount]
      simp only [take_textOf_eq_nil_iff hin hw hcomp, take_textOf_eq_nil_iff hout hw hcomp]
      split <;> split <;> simp_all
    · exact expandPart_render hin hw hcomp
    · dsimp only
      rw [expandPart_render hout hw hcomp, hcalls, List.length_cons]
      simp only [take_textOf_eq_nil_iff hin hw hcomp, ite_not]

theorem finish_none (h : g.finish wordexp addr mask ss = (none, ss'))
    (hd : ss.aliases = d.toAliases) (hw : g.WellFormed) (hcomp : g.Complete) :
    wordexp ss.calls.length (expandedText d g.render) = none := by
  have hfin := finish_spec wordexp ss hd hw hcomp addr mask
  cases hwords : wordexp ss.calls.length (expandedText d g.render) with
  | none => rfl
  | some words =>
    rw [hwords] at hfin
    obtain ⟨command, ss₁, hfin, _⟩ := hfin
    cases h.symm.trans hfin

theorem finish_some {command : Command}
    (h : g.finish wordexp addr mask ss = (some command, ss')) (hd : ss.aliases = d.toAliases)
    (hw : g.WellFormed) (hcomp : g.Complete) :
    ss'.aliases = d.toAliases ∧ ss'.calls.length = ss.calls.length + callCount g.render ∧
      SegmentMade wordexp d ss.calls.length g.render command := by
  have hfin := finish_spec wordexp ss hd hw hcomp addr mask
  cases hwords : wordexp ss.calls.length (expandedText d g.render) with
  | none =>
    rw [hwords] at hfin
    obtain ⟨ss₁, hfin⟩ := hfin
    cases h.symm.trans hfin
  | some words =>
    rw [hwords] at hfin
    obtain ⟨command', ss₁, hfin, haliases, _, hcalls, _, _, hmade⟩ := hfin
    cases h.symm.trans hfin
    exact ⟨haliases, hcalls, hmade⟩

/-- A `wordexp` that is a function of its text makes the command of the segment. -/
theorem SegmentMade.eq_segmentCommand {command : Command} {n : Nat} {next : Option Connector}
    (h : SegmentMade (fun _ => f) d n u command) (haddr : command.addr = addr)
    (hmask : command.connectionMask = segmentMask u next) :
    command = segmentCommand d f addr (u, next) := by
  obtain ⟨⟨words, hwords, hargv, hpath⟩, hfrom, hto⟩ := h
  obtain ⟨addr', path, argv, redirectTo, redirectFrom, mask'⟩ := command
  dsimp only at haddr hmask hargv hpath hfrom hto
  rw [segmentCommand, hwords, haddr, hmask, hargv, hpath, hfrom, hto]
  rfl

/-! The run over the pieces, one at a time. -/

/-- A piece starts a complex. -/
def opens : CString → Bool
  | [] => false
  | c :: _ => (Complex.empty.push c).isSome

theorem opens_of_scan (h : Complex.empty.scan u = some g) (hcomp : g.Complete) :
    opens u = true := by
  cases u with
  | nil =>
    cases h
    exact absurd rfl hcomp
  | cons c u =>
    rw [Complex.scan] at h
    rw [opens]
    cases hp : Complex.empty.push c with
    | none => simp [hp] at h
    | some g => rfl

/-- What is pending is queued before the next piece, if that starts a complex. -/
theorem interpret_pending (p : Pending) :
    interpret wordexp rest false (some p) u queue ss =
      if opens u then
        match p.complex.finish wordexp p.addr p.mask ss with
        | (none, ss) => .aborted queue ss
        | (some command, ss) =>
          interpret wordexp rest false none u (queueInsert queue command) ss
      else .rejected ss := by
  have hread : ∀ c u next, readPiece wordexp (some p) c u queue ss next =
      if opens (c :: u) then
        match p.complex.finish wordexp p.addr p.mask ss with
        | (none, ss) => .aborted queue ss
        | (some command, ss) =>
          readPiece wordexp none c u (queueInsert queue command) ss next
      else .rejected ss := by
    intro c u next
    rw [readPiece, opens]
    cases hp : Complex.empty.push c with
    | none => rfl
    | some g =>
      simp only [flush, Option.isSome_some, if_true]
      cases p.complex.finish wordexp p.addr p.mask ss with
      | mk done ss₁ =>
        cases done with
        | none => rfl
        | some command =>
          simp only [readPiece, hp, flush, List.append_nil, queueInsert]
  cases rest with
  | nil =>
    cases u with
    | nil => rfl
    | cons c u => exact hread c u _
  | cons q rest =>
    obtain ⟨k, v⟩ := q
    cases u with
    | nil => rfl
    | cons c u => exact hread c u _

/-- A piece that is a complex, before another piece. -/
theorem interpret_cons (k : Connector) (hg : Complex.empty.scan u = some g)
    (hcomp : g.Complete) :
    interpret wordexp ((k, v) :: rest) first none u queue ss =
      if opens v then
        match g.finish wordexp ss.created (k.mask g) { ss with created := ss.created + 1 } with
        | (none, ss) => .aborted queue ss
        | (some command, ss) =>
          interpret wordexp rest false none v (queueInsert queue command) ss
      else .rejected { ss with created := ss.created + 1 } := by
  have hstep : interpret wordexp ((k, v) :: rest) first none u queue ss =
      interpret wordexp rest false (some ⟨g, k.mask g, ss.created⟩) v queue
        { ss with created := ss.created + 1 } := by
    cases u with
    | nil =>
      cases hg
      exact absurd rfl hcomp
    | cons c u =>
      rw [Complex.scan] at hg
      rw [interpret, readPiece]
      cases hp : Complex.empty.push c with
      | none => simp [hp] at hg
      | some g₁ =>
        simp only [hp] at hg
        simp only [flush, hg, if_pos hcomp, List.append_nil]
  rw [hstep, interpret_pending]

/-- The last piece, when it is a complex. -/
theorem interpret_last (hg : Complex.empty.scan u = some g) (hcomp : g.Complete) :
    interpret wordexp [] first none u queue ss =
      match g.finish wordexp ss.created g.mask { ss with created := ss.created + 1 } with
      | (none, ss) => .aborted queue ss
      | (some command, ss) => .accepted (queueInsert queue command) ss := by
  cases u with
  | nil =>
    cases hg
    exact absurd rfl hcomp
  | cons c u =>
    rw [Complex.scan] at hg
    rw [interpret, readPiece]
    cases hp : Complex.empty.push c with
    | none => simp [hp] at hg
    | some g₁ =>
      simp only [hp] at hg
      rcases hfin : g.finish wordexp ss.created g.mask { ss with created := ss.created + 1 }
        with ⟨_ | command, ss'⟩ <;>
        simp only [flush, hg, endLine, if_pos hcomp, hfin, List.append_nil]

/-! The queue of an accepted line. -/

instance (u : CString) : Decidable (u ∈ complexRule) :=
  decidable_of_iff ((Complex.empty.scan u).any fun g => decide g.Complete) (by
    rw [mem_complexRule_iff_scan, Option.any_eq_true]
    simp only [decide_eq_true_eq])

instance (line : CString) : Decidable (line ∈ mainRule) :=
  decidable_of_iff _ mem_mainRule.symm

/-- An `&` is followed, up to whitespace, by `|`. -/
def AmpPipe (line : CString) : Prop :=
  ∃ a blank b, (∀ c ∈ blank, classify c = .space) ∧ line = a ++ 38 :: (blank ++ 124 :: b)

theorem mask_eq_segmentMask (hw : g.WellFormed) (hcomp : g.Complete) :
    g.mask = segmentMask g.render none ∧ Connector.seq.mask g = segmentMask g.render (some .seq) ∧
      (38 ∉ g.render → Connector.pipe.mask g = segmentMask g.render (some .pipe)) := by
  have hamp := Complex.mem_amp_iff hw hcomp
  cases hb : g.background with
  | none =>
    have hnot : 38 ∉ g.render := by simp [hamp, hb]
    simp [Complex.mask, Connector.mask, segmentMask, hb, hnot]
  | some trail =>
    have hmem : 38 ∈ g.render := by simp [hamp, hb]
    simp [Complex.mask, Connector.mask, segmentMask, hb, hmem]

/-- An `&` in a complex stands before whitespace only. -/
theorem ampPipe_of_mem (hw : g.WellFormed) (hcomp : g.Complete) (hm : 38 ∈ g.render)
    (s : CString) : AmpPipe (g.render ++ Connector.pipe.byte :: s) := by
  have hamp := (Complex.mem_amp_iff hw hcomp).mp hm
  obtain ⟨trail, hb⟩ := Option.isSome_iff_exists.mp hamp
  exact ⟨_, trail, s, (hw.background trail hb).2, by
    simp only [Complex.render, Complex.tail, hb, List.append_assoc, List.cons_append]
    rfl⟩

theorem AmpPipe.append (h : AmpPipe v) (u : CString) : AmpPipe (u ++ v) := by
  obtain ⟨a, blank, b, hblank, rfl⟩ := h
  exact ⟨u ++ a, blank, b, hblank, by simp⟩

/-- A run over complexes whose expansions succeed queues their commands in order. -/
theorem interpret_accepted (first : Bool) (queue : Queue) (ss : Session) (hu : u ∈ complexRule)
    (hrest : ∀ p ∈ rest, p.2 ∈ complexRule)
    (hamp : ¬ AmpPipe (u ++ joinRest rest)) (hd : ss.aliases = d.toAliases)
    (hf : ∀ seg ∈ attach u rest, (f (expandedText d seg.1)).isSome) :
    ∃ ss', interpret (fun _ => f) rest first none u queue ss =
      .accepted (queue ++ (attach u rest).mapIdx fun i seg =>
        segmentCommand d f (ss.created + i) seg) ss' := by
  induction rest generalizing u first queue ss with
  | nil =>
    obtain ⟨g, hg, hcomp⟩ := mem_complexRule_iff_scan.mp hu
    obtain ⟨hr, hw⟩ := Complex.scan_render Complex.wellFormed_empty hg
    obtain rfl : g.render = u := hr
    rw [interpret_last hg hcomp]
    have hfin := finish_spec (fun _ => f)
      { ss with created := ss.created + 1 } hd hw hcomp ss.created g.mask
    obtain ⟨words, hwords⟩ := Option.isSome_iff_exists.mp (hf _ List.mem_cons_self)
    rw [hwords] at hfin
    obtain ⟨command, ss', hfin, _, _, _, haddr, hmask, hmade⟩ := hfin
    rw [hfin, hmade.eq_segmentCommand haddr
      (hmask.trans (mask_eq_segmentMask hw hcomp).1 : _ = segmentMask _ none)]
    exact ⟨ss', rfl⟩
  | cons p rest ih =>
    obtain ⟨k, v⟩ := p
    have hv := hrest (k, v) List.mem_cons_self
    obtain ⟨g, hg, hcomp⟩ := mem_complexRule_iff_scan.mp hu
    obtain ⟨g', hg', hcomp'⟩ := mem_complexRule_iff_scan.mp hv
    obtain ⟨hr, hw⟩ := Complex.scan_render Complex.wellFormed_empty hg
    obtain rfl : g.render = u := hr
    have hjoin : g.render ++ joinRest ((k, v) :: rest) =
        g.render ++ k.byte :: (v ++ joinRest rest) := by simp [joinRest]
    rw [hjoin] at hamp
    have hmask : k.mask g = segmentMask g.render (some k) := by
      obtain ⟨_, hseq, hpipe⟩ := mask_eq_segmentMask hw hcomp
      cases k with
      | seq => exact hseq
      | pipe => exact hpipe fun hm => hamp (ampPipe_of_mem hw hcomp hm _)
    rw [interpret_cons k hg hcomp, if_pos (opens_of_scan hg' hcomp')]
    have hfin := finish_spec (fun _ => f)
      { ss with created := ss.created + 1 } hd hw hcomp ss.created (k.mask g)
    obtain ⟨words, hwords⟩ := Option.isSome_iff_exists.mp (hf _ List.mem_cons_self)
    rw [hwords] at hfin
    obtain ⟨command, ss₁, hfin, hd₁, hcreated, _, haddr, hmask', hmade⟩ := hfin
    rw [hfin, hmade.eq_segmentCommand haddr (hmask'.trans hmask)]
    have hamp' : ¬ AmpPipe (v ++ joinRest rest) := by
      intro h
      apply hamp
      have happ := h.append (g.render ++ [k.byte])
      simpa using happ
    obtain ⟨ss₂, hrun⟩ := ih false
      (queueInsert queue (segmentCommand d f ss.created (g.render, some k))) ss₁ hv
      (fun p hp => hrest p (List.mem_cons_of_mem _ hp)) hamp' hd₁
      fun seg hs => hf seg (List.mem_cons_of_mem _ hs)
    refine ⟨ss₂, hrun.trans ?_⟩
    rw [hcreated]
    simp only [attach, List.mapIdx_cons, queueInsert, List.append_assoc, List.singleton_append,
      Nat.add_zero]
    congr 4
    funext i seg
    congr 1
    omega

theorem interpret_blank (wordexp : Wordexp) (queue : Queue) (ss : Session)
    (hu : ∀ c ∈ u, classify c = .space) :
    ∃ ss', interpret wordexp [] true none u queue ss = .accepted queue ss' := by
  cases u with
  | nil => exact ⟨ss, rfl⟩
  | cons c u =>
    have hscan := Complex.scan_gap (g := Complex.empty) rfl rfl hu
    rw [Complex.scan] at hscan
    rw [interpret, readPiece]
    cases hp : Complex.empty.push c with
    | none => simp [hp] at hscan
    | some g =>
      simp only [hp] at hscan
      simp only [flush, hscan, List.append_nil]
      exact ⟨_, rfl⟩

theorem splitLine_blank {line : CString} (hblank : ∀ c ∈ line, classify c = .space) :
    splitLine line = (line, []) := by
  have hsplit := splitLine_join []
    (fun c hc => findConnector_eq_none_iff.mpr (by rw [hblank c hc]; decide)) (by simp)
  rwa [joinRest, List.flatMap_nil, List.append_nil] at hsplit

/-- Every line of the grammar, without `&` before `|`, gives the commands of its segments. -/
theorem parseInput_meaning (d : Dictionary) (f : CString → Option (List CString))
    (calls : List ExpandCall) (created : Nat) (line : CString) (hline : ∀ c ∈ line, c ≠ 0)
    (hmain : line ∈ mainRule) (hamp : ¬ AmpPipe line)
    (hf : ∀ seg ∈ segments line, (f (expandedText d seg.1)).isSome) :
    ∃ r, parseInput (fun _ => f) ⟨d.toAliases, calls, created⟩ line = .ok r ∧
      r.queue = (segments line).mapIdx fun i seg => segmentCommand d f (created + i) seg := by
  obtain ⟨r, hr, hqueue, _⟩ := parseInput_spec (fun _ => f) ⟨d.toAliases, calls, created⟩ hline
  refine ⟨r, hr, hqueue.trans ?_⟩
  rw [interpretLine, segments]
  by_cases hblank : ∀ c ∈ line, classify c = .space
  · obtain ⟨hrest, hu⟩ : (splitLine line).2 = [] ∧
        ∀ c ∈ (splitLine line).1, classify c = .space := by
      rw [splitLine_blank hblank]
      exact ⟨rfl, hblank⟩
    obtain ⟨ss', hrun⟩ := interpret_blank (fun _ => f) queueNew
      ⟨d.toAliases, calls, created⟩ hu
    rw [if_pos hblank, hrest, hrun]
    rfl
  · rw [segments, if_neg hblank] at hf
    rcases mem_mainRule.mp hmain with h | ⟨hu, hrest⟩
    · exact absurd h hblank
    · rw [← joinRest_splitLine line] at hamp
      obtain ⟨ss', hrun⟩ := interpret_accepted true queueNew
        ⟨d.toAliases, calls, created⟩ hu hrest hamp rfl hf
      rw [if_neg hblank, hrun]
      rfl

end Redshell
