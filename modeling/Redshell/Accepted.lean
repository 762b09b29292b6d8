import Redshell.ParserFailure

/-! The connections of the commands that an accepted line gives. -/
namespace Redshell

/-- Every command before a pipe has the next one. -/
def Ended (q : Queue) : Prop :=
  ∀ i cmd, q[i]? = some cmd → cmd.connectionMask = .pipe → i + 1 < q.length

variable {wordexp : Wordexp} {ss ss' : Session} {g : Complex} {u : CString} {q queue : Queue}
  {first : Bool} {addr : Nat} {mask : Connection} {command : Command}

theorem finish_mask (h : g.finish wordexp addr mask ss = (some command, ss')) :
    command.connectionMask = mask := by
  dsimp only [Complex.finish] at h
  split at h
  · cases h
  · cases h
    rfl

/-- The mask that the actions leave in the command of a segment: that of `|` writes over `&`. -/
def keptMask (seg : CString × Option Connector) : Connection :=
  if seg.2 = some .pipe then .pipe else segmentMask seg.1 seg.2

theorem keptMask_eq (hw : g.WellFormed) (hcomp : g.Complete) :
    keptMask (g.render, none) = g.mask ∧
      ∀ k : Connector, keptMask (g.render, some k) = k.mask g := by
  obtain ⟨hlast, hseq, _⟩ := mask_eq_segmentMask hw hcomp
  refine ⟨(if_neg fun h => by cases h).trans hlast.symm, fun k => ?_⟩
  cases k with
  | seq => exact (if_neg fun h => by cases h).trans hseq.symm
  | pipe => exact if_pos rfl

/-- An accepted run over complexes queues a command for each, with the mask of its connector. -/
theorem interpret_masks (rest : List (Connector × CString)) (first : Bool) (u : CString)
    (queue : Queue) (ss : Session) (hu : u ∈ complexRule) (hrest : ∀ p ∈ rest, p.2 ∈ complexRule)
    (h : interpret wordexp rest first none u queue ss = .accepted q ss') :
    ∃ made, q = queue ++ made ∧ made.map (·.connectionMask) = (attach u rest).map keptMask := by
  revert hu hrest h
  refine interpret_induction wordexp
    (motive := fun ss u rest _ queue v => u ∈ complexRule → (∀ p ∈ rest, p.2 ∈ complexRule) →
      v = .accepted q ss' → ∃ made, q = queue ++ made ∧
        made.map (·.connectionMask) = (attach u rest).map keptMask)
    ?rejected ?blank ?unopened ?failed ?last ?cons rest first u queue ss
  case rejected => exact fun _ _ _ _ _ _ hnot _ hu => absurd hu hnot
  case blank => exact fun _ _ _ _ _ hnot _ hu => absurd hu hnot
  case unopened =>
    intro ss u k v rest first queue _ _ _ h
    cases h
  case failed =>
    intro ss ss' g mask rest first queue _ _ _ _ _ _ h
    cases h
  case last =>
    intro ss ss' g command first queue hw hcomp hfin _ _ h
    cases h
    refine ⟨[command], rfl, congrArg (fun mask => [mask]) ?_⟩
    exact (finish_mask hfin).trans (keptMask_eq hw hcomp).1.symm
  case cons =>
    intro ss ss' g k v rest command first queue verdict hw hcomp hfin ih _ hrest h
    obtain ⟨hv, hrest⟩ := List.forall_mem_cons.mp hrest
    obtain ⟨made, rfl, hmasks⟩ := ih hv hrest h
    refine ⟨command :: made, by simp [queueInsert], ?_⟩
    rw [attach, List.map_cons, List.map_cons, hmasks, finish_mask hfin, (keptMask_eq hw hcomp).2]

theorem attach_append (rest : List (Connector × CString)) (u : CString) {i : Nat} {v : CString}
    {k : Connector} (h : (attach u rest)[i]? = some (v, some k)) :
    i + 1 < (attach u rest).length := by
  induction rest generalizing u i with
  | nil =>
    cases i with
    | zero => cases h
    | succ i => cases h
  | cons p rest ih =>
    rw [attach, List.length_cons]
    cases i with
    | zero =>
      have hpos : 0 < (attach p.2 rest).length := by cases rest <;> exact Nat.succ_pos _
      omega
    | succ i => exact Nat.succ_lt_succ (ih p.2 h)

/-- A line of the grammar whose expansions succeed is accepted. -/
theorem interpretLine_accepted {st : Aliases} {created : Nat} {line : CString}
    (hmain : line ∈ mainRule)
    (hok : ∀ call ∈ (interpretLine wordexp ⟨st, [], created⟩ line).session.calls,
      call.glob = true → call.result ≠ none) :
    ∃ q ss, interpretLine wordexp ⟨st, [], created⟩ line = .accepted q ss := by
  have hfits := interpret_fits wordexp (splitLine line).2 true none (splitLine line).1
    queueNew ⟨st, [], created⟩
  rw [acceptable_splitLine] at hfits
  change Verdict.Fits (interpretLine wordexp ⟨st, [], created⟩ line) _ at hfits
  cases hv : interpretLine wordexp ⟨st, [], created⟩ line with
  | accepted q ss => exact ⟨q, ss, rfl⟩
  | aborted q ss =>
    rw [hv] at hfits hok
    obtain ⟨call, hcall, hglob, hnone⟩ := hfits
    exact absurd hnone (hok call hcall hglob)
  | rejected ss =>
    rw [hv] at hfits
    exact absurd hmain hfits

/-- The masks of the commands that an accepted line gives. -/
theorem parseInput_masks {st : Aliases} {created : Nat} {line : CString} {r : Parse}
    (hline : ∀ c ∈ line, c ≠ 0) (hmain : line ∈ mainRule)
    (hparse : parseInput wordexp ⟨st, [], created⟩ line = .ok r)
    (hok : ∀ call ∈ r.session.calls, call.glob = true → call.result ≠ none) :
    r.queue.map (·.connectionMask) = (segments line).map keptMask := by
  obtain ⟨r', hr', hqueue, hsession, _⟩ := parseInput_spec wordexp ⟨st, [], created⟩ hline
  cases hparse.symm.trans hr'
  rw [hsession] at hok
  obtain ⟨q, ss, hv⟩ := interpretLine_accepted hmain hok
  rw [hqueue, hv]
  rw [interpretLine] at hv
  by_cases hblank : ∀ c ∈ line, classify c = .space
  · rw [segments, if_pos hblank]
    obtain ⟨ss', hrun⟩ := interpret_blank wordexp queueNew ⟨st, [], created⟩ hblank
    rw [splitLine_blank hblank, hrun] at hv
    cases hv
    rfl
  · rw [segments, if_neg hblank]
    obtain ⟨hu, hrest⟩ := (mem_mainRule.mp hmain).resolve_left hblank
    obtain ⟨made, rfl, hmasks⟩ := interpret_masks _ _ _ _ _ hu hrest hv
    exact hmasks

theorem keptMask_pipe {seg : CString × Option Connector} (h : keptMask seg = .pipe) :
    seg.2 = some .pipe := by
  rw [keptMask] at h
  split at h
  · assumption
  · unfold segmentMask at h
    split at h
    · cases h
    · split at h
      · assumption
      · cases h
      · cases h

theorem parseInput_ended {st : Aliases} {created : Nat} {line : CString} {r : Parse}
    (hline : ∀ c ∈ line, c ≠ 0) (hmain : line ∈ mainRule)
    (hparse : parseInput wordexp ⟨st, [], created⟩ line = .ok r)
    (hok : ∀ call ∈ r.session.calls, call.glob = true → call.result ≠ none) : Ended r.queue := by
  have hmasks := parseInput_masks hline hmain hparse hok
  intro i cmd hcmd hmask
  have hlength := congrArg List.length hmasks
  rw [List.length_map, List.length_map] at hlength
  have hat : (r.queue.map (·.connectionMask))[i]? = ((segments line).map keptMask)[i]? := by
    rw [hmasks]
  rw [List.getElem?_map, List.getElem?_map, hcmd, Option.map_some, hmask] at hat
  obtain ⟨⟨u, next⟩, hseg, hkept⟩ := Option.map_eq_some_iff.mp hat.symm
  obtain rfl := keptMask_pipe hkept
  rw [segments] at hseg hlength
  split at hseg
  · cases hseg
  · next hblank =>
    rw [if_neg hblank] at hlength
    rw [hlength]
    exact attach_append _ _ hseg

/-- Every segment with `&` gives a command of the background. -/
def KeepsBackground (line : CString) (q : Queue) : Prop :=
  ∀ (i : Nat) (u : CString) (next : Option Connector), (segments line)[i]? = some (u, next) →
    38 ∈ u → ∃ cmd, q[i]? = some cmd ∧ cmd.connectionMask = .background

/-- The background marker survives exactly when no segment with `&` is followed by `|`. -/
theorem parseInput_keepsBackground_iff (wordexp : Wordexp) (st : Aliases) (created : Nat)
    (line : CString) (hline : ∀ c ∈ line, c ≠ 0) (hmain : line ∈ mainRule) (r : Parse)
    (hparse : parseInput wordexp ⟨st, [], created⟩ line = .ok r)
    (hok : ∀ call ∈ r.session.calls, call.glob = true → call.result ≠ none) :
    KeepsBackground line r.queue ↔ ∀ seg ∈ segments line, 38 ∈ seg.1 → seg.2 ≠ some .pipe := by
  have hmasks := parseInput_masks hline hmain hparse hok
  have hat : ∀ i : Nat, r.queue[i]?.map (·.connectionMask) = (segments line)[i]?.map keptMask := by
    intro i
    rw [← List.getElem?_map, hmasks, List.getElem?_map]
  constructor
  · rintro h ⟨u, next⟩ hseg hamp rfl
    obtain ⟨i, hi⟩ := List.getElem?_of_mem hseg
    obtain ⟨cmd, hcmd, hmask⟩ := h i u _ hi hamp
    have hkept := hat i
    rw [hcmd, hi, Option.map_some, Option.map_some, hmask, keptMask, if_pos rfl] at hkept
    cases hkept
  · intro h i u next hi hamp
    have hkept := hat i
    rw [hi, Option.map_some] at hkept
    obtain ⟨cmd, hcmd, hmask⟩ := Option.map_eq_some_iff.mp hkept
    refine ⟨cmd, hcmd, hmask.trans ?_⟩
    rw [keptMask, if_neg (h _ (List.mem_of_getElem? hi) hamp)]
    exact if_pos hamp

/-- A parse whose expansions are seen to succeed. -/
theorem exists_parse (wordexp : Wordexp) (ss : Session) (line : CString)
    (h : (parseInput wordexp ss line).map
      (fun r => r.session.calls.all fun call => call.result.isSome) = .ok true) :
    ∃ r, parseInput wordexp ss line = .ok r ∧
      ∀ call ∈ r.session.calls, call.glob = true → call.result ≠ none := by
  cases hparse : parseInput wordexp ss line with
  | error fault => simp [hparse, Except.map] at h
  | ok r =>
    rw [hparse] at h
    refine ⟨r, rfl, fun call hcall _ hnone => ?_⟩
    have hall := List.all_eq_true.mp (Except.ok.inj h) call hcall
    simp [hnone] at hall

theorem parseInput_keepsBackground_iff_ls :
    ∃ r, parseInput (fun _ text => some [text]) ⟨Dictionary.empty.toAliases, [], 0⟩
        (bytes "ls & ; ls | wc &") = .ok r ∧
      (KeepsBackground (bytes "ls & ; ls | wc &") r.queue ↔
        ∀ seg ∈ segments (bytes "ls & ; ls | wc &"), 38 ∈ seg.1 → seg.2 ≠ some .pipe) := by
  obtain ⟨r, hparse, hok⟩ := exists_parse (fun _ text => some [text])
    ⟨Dictionary.empty.toAliases, [], 0⟩ (bytes "ls & ; ls | wc &") (by decide +kernel)
  exact ⟨r, hparse, parseInput_keepsBackground_iff _ _ _ _ (by decide +kernel)
    (by decide +kernel) r hparse hok⟩

/-- In `ls & | wc` the command `ls` is only connected by a pipe. -/
theorem parseInput_forgets_background :
    ¬ ∀ (wordexp : Wordexp) (st : Aliases) (created : Nat) (line : CString),
      (∀ c ∈ line, c ≠ 0) → line ∈ mainRule →
      ∀ r, parseInput wordexp ⟨st, [], created⟩ line = .ok r →
      (∀ call ∈ r.session.calls, call.glob = true → call.result ≠ none) →
      KeepsBackground line r.queue := by
  intro hall
  obtain ⟨r, hparse, hok⟩ := exists_parse (fun _ text => some [text])
    ⟨Dictionary.empty.toAliases, [], 0⟩ (bytes "ls & | wc") (by decide +kernel)
  have hseg : (segments (bytes "ls & | wc"))[0]? = some (bytes "ls & ", some .pipe) := by
    decide +kernel
  have hmask : (parseInput (fun _ text => some [text]) ⟨Dictionary.empty.toAliases, [], 0⟩
      (bytes "ls & | wc")).map (fun r => r.queue[0]?.map (·.connectionMask)) =
      .ok (some .pipe) := by decide +kernel
  rw [hparse] at hmask
  obtain ⟨cmd, hcmd, hback⟩ := hall _ _ _ _ (by decide +kernel) (by decide +kernel) r hparse hok
    0 _ _ hseg (by decide +kernel)
  obtain ⟨cmd', hcmd', hpipe⟩ := Option.map_eq_some_iff.mp (Except.ok.inj hmask)
  cases hcmd.symm.trans hcmd'
  rw [hback] at hpipe
  cases hpipe

end Redshell
