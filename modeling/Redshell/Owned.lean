import Redshell.Line

/-! The commands that a parse creates, and where each of them is when it ends. -/
namespace Redshell

/-- The pending command and its text, as the actions `new` and `term` find them. -/
inductive Holding where
  | idle
  | fresh
  | held
  | queued
  deriving DecidableEq

namespace Holding

open ParserState

/-- What the action with this code makes of it, none where a run must not get to. -/
def act : Nat → Holding → Option Holding
  | 0, fresh => some held
  | 0, held => some held
  | 1, h => some h
  | 2, h => some h
  | 3, idle => some fresh
  | 3, queued => some fresh
  | 4, idle => some idle
  | 4, fresh => some fresh
  | 4, held => some queued
  | 5, held => some held
  | 6, held => some held
  | 7, held => some held
  | _, _ => none

def actAll : List Nat → Holding → Option Holding
  | [], h => some h
  | code :: codes, h => (h.act code).bind (actAll codes)

theorem held_of_act {code : Nat} {h h' : Holding} (hcode : code = 5 ∨ code = 6 ∨ code = 7)
    (hact : h.act code = some h') : h = held ∧ h' = held := by
  rcases hcode with rfl | rfl | rfl
  all_goals
    cases h <;> cases hact
    exact ⟨rfl, rfl⟩

/-- What is pending in a state of the loop. -/
def ofState : ParserState → Holding
  | start => idle
  | lead => fresh
  | firstLead => fresh
  | _ => held

/-- Every transition runs actions that its state allows. -/
theorem step_actAll {s : ParserState} (hs : s ∈ live) (cl : ByteClass) :
    s.step cl = (error, []) ∨
      (cl ≠ .nul ∧ (s.step cl).1 ∈ live ∧
        (ofState s).actAll (s.step cl).2 = some (ofState (s.step cl).1)) ∨
      (cl = .nul ∧ s.step cl = (final, [4]) ∧ ((ofState s).act 4).isSome) := by
  revert s
  cases cl <;> decide

end Holding

namespace Fault

variable {α β : Type} {x : Except Fault α} {f : α → Except Fault β} {g : α → β} {b : β}

theorem ok_of_bind (h : (x >>= f) = .ok b) : ∃ a, x = .ok a ∧ f a = .ok b := by
  cases x with
  | error fault => cases h
  | ok a => exact ⟨a, rfl, h⟩

theorem ok_of_map (h : g <$> x = .ok b) : ∃ a, x = .ok a ∧ g a = b := by
  cases x with
  | error fault => cases h
  | ok a => exact ⟨a, rfl, Except.ok.inj h⟩

end Fault

namespace Machine

/-- The machine has this much pending. -/
def Pends (m : Machine) : Holding → Prop
  | .idle => m.command = none ∧ m.fsm.buffer.len = some 0
  | .fresh => m.command ≠ none ∧ m.fsm.buffer.len = some 0
  | .held => m.command ≠ none ∧ ∃ n, m.fsm.buffer.len = some (n + 1)
  | .queued => m.command = none

/-- The commands created from an address on are in the queue, in order, or pending last. -/
structure Owns (m : Machine) (created : Nat) : Prop where
  le : created ≤ m.session.created
  addrs : (m.queue ++ m.command.toList).map (·.addr) =
    List.range' created (m.session.created - created)
  bare : ∀ cmd, m.command = some cmd →
    cmd.argv = none ∧ cmd.redirectToPath = none ∧ cmd.redirectFromPath = none

/-- What an action leaves alone: the place, the queue, the command and what was created. -/
structure Stays (m m' : Machine) : Prop where
  cs : m'.fsm.cs = m.fsm.cs
  queue : m'.queue = m.queue
  command : m'.command = m.command
  created : m'.session.created = m.session.created

/-- What the action with a code makes of the machine, and whether it leaves the loop. -/
inductive Acted (wordexp : Wordexp) (c : UInt8) (m : Machine) : Nat → Machine × Bool → Prop
  | append {t : TextBuffer} (happ : m.fsm.buffer.append c = .ok t) :
      Acted wordexp c m 0 ({ m with fsm := { m.fsm with buffer := t } }, false)
  | appendIn {t : TextBuffer} (happ : m.fsm.stdin.append c = .ok t) :
      Acted wordexp c m 1 ({ m with fsm := { m.fsm with stdin := t } }, false)
  | appendOut {t : TextBuffer} (happ : m.fsm.stdout.append c = .ok t) :
      Acted wordexp c m 2 ({ m with fsm := { m.fsm with stdout := t } }, false)
  | new {m' : Machine} (hnew : m.new = .ok m') (hp : m'.p = m.p) : Acted wordexp c m 3 (m', false)
  | term {done : Machine × Bool} (hterm : m.term wordexp = .ok done) (hp : done.1.p = m.p)
      (hfsm : done.1.fsm = m.fsm) : Acted wordexp c m 4 done
  | setMask {code : Nat} {mask : Connection → Connection} {m' : Machine}
      (hcode : code = 5 ∨ code = 6 ∨ code = 7) (hmask : m.setMask mask = .ok m')
      (hp : m'.p = m.p) (hfsm : m'.fsm = m.fsm) : Acted wordexp c m code (m', false)
  | none {code : Nat} (hcode : 7 < code) : Acted wordexp c m code (m, false)

variable {wordexp : Wordexp} {m m' : Machine} {c : UInt8} {code created : Nat} {h h' : Holding}
  {left : Bool} {acts : List Nat} {s : ParserState} {done : Machine × Bool}

theorem new_frame (hrun : m.new = .ok m') : m'.p = m.p := by
  obtain ⟨buffer, _, hrun⟩ := Fault.ok_of_bind hrun
  obtain ⟨stdout, _, hrun⟩ := Fault.ok_of_bind hrun
  obtain ⟨stdin, _, hrun⟩ := Fault.ok_of_bind hrun
  cases hrun
  rfl

theorem term_frame (hrun : m.term wordexp = .ok done) :
    done.1.p = m.p ∧ done.1.fsm = m.fsm := by
  unfold term at hrun
  split at hrun
  · cases hrun
  · split at hrun
    · obtain ⟨text, _, hrun⟩ := Fault.ok_of_bind hrun
      dsimp only at hrun
      split at hrun
      · cases hrun
        exact ⟨rfl, rfl⟩
      · cases hrun
      · obtain ⟨m₁, hinsert, hrun⟩ := Fault.ok_of_bind hrun
        cases hrun
        obtain ⟨stdin, _, hinsert⟩ := Fault.ok_of_bind hinsert
        obtain ⟨stdout, _, hinsert⟩ := Fault.ok_of_bind hinsert
        cases hinsert
        exact ⟨rfl, rfl⟩
    · cases hrun
      exact ⟨rfl, rfl⟩

theorem setMask_frame {mask : Connection → Connection} (hrun : m.setMask mask = .ok m') :
    m'.p = m.p ∧ m'.fsm = m.fsm := by
  unfold setMask at hrun
  split at hrun
  · cases hrun
  · cases hrun
    exact ⟨rfl, rfl⟩

theorem action_acted (hrun : m.action wordexp c code = .ok done) : Acted wordexp c m code done := by
  unfold action at hrun
  split at hrun
  · obtain ⟨m₁, happ, rfl⟩ := Fault.ok_of_map hrun
    obtain ⟨t, ht, hdone⟩ := Fault.ok_of_bind happ
    cases hdone
    exact .append ht
  · obtain ⟨m₁, happ, rfl⟩ := Fault.ok_of_map hrun
    obtain ⟨t, ht, hdone⟩ := Fault.ok_of_bind happ
    cases hdone
    exact .appendIn ht
  · obtain ⟨m₁, happ, rfl⟩ := Fault.ok_of_map hrun
    obtain ⟨t, ht, hdone⟩ := Fault.ok_of_bind happ
    cases hdone
    exact .appendOut ht
  · obtain ⟨m₁, hnew, rfl⟩ := Fault.ok_of_map hrun
    exact .new hnew (new_frame hnew)
  · exact .term hrun (term_frame hrun).1 (term_frame hrun).2
  · obtain ⟨m₁, hmask, rfl⟩ := Fault.ok_of_map hrun
    exact .setMask (.inl rfl) hmask (setMask_frame hmask).1 (setMask_frame hmask).2
  · obtain ⟨m₁, hmask, rfl⟩ := Fault.ok_of_map hrun
    exact .setMask (.inr (.inl rfl)) hmask (setMask_frame hmask).1 (setMask_frame hmask).2
  · obtain ⟨m₁, hmask, rfl⟩ := Fault.ok_of_map hrun
    exact .setMask (.inr (.inr rfl)) hmask (setMask_frame hmask).1 (setMask_frame hmask).2
  · cases hrun
    exact .none (by grind)

theorem Stays.owns (hs : Stays m m') (ho : m.Owns created) : m'.Owns created := by
  refine ⟨hs.created ▸ ho.le, ?_, hs.command ▸ ho.bare⟩
  rw [hs.queue, hs.command, hs.created]
  exact ho.addrs

theorem Stays.pends (hs : Stays m m') (hbuffer : m'.fsm.buffer = m.fsm.buffer)
    (hp : m.Pends h) : m'.Pends h := by
  cases h with
  | idle => exact ⟨hs.command.trans hp.1, hbuffer ▸ hp.2⟩
  | fresh => exact ⟨hs.command ▸ hp.1, hbuffer ▸ hp.2⟩
  | held => exact ⟨hs.command ▸ hp.1, hbuffer ▸ hp.2⟩
  | queued => exact hs.command.trans hp

/-! The actions, one at a time. -/

theorem append_len {t t' : TextBuffer} (hrun : t.append c = .ok t') :
    ∃ n, t'.len = some (n + 1) := by
  unfold TextBuffer.append at hrun
  split at hrun
  · cases hrun
  · next n hn =>
    split at hrun
    · obtain ⟨t₁, _, hrun⟩ := Fault.ok_of_bind hrun
      obtain ⟨t₂, _, hrun⟩ := Fault.ok_of_bind hrun
      cases hrun
      exact ⟨n, rfl⟩
    · next hge =>
      cases hrun
      refine ⟨n - 1, ?_⟩
      have hpos : 0 < bufSize := by decide
      rw [hn, Nat.sub_add_cancel (by omega)]

theorem new_owns (hrun : m.new = .ok m') (hcommand : m.command = none) (ho : m.Owns created) :
    m'.fsm.cs = m.fsm.cs ∧ m'.Owns created ∧ m'.Pends .fresh := by
  obtain ⟨buffer, hbuffer, hrun⟩ := Fault.ok_of_bind hrun
  obtain ⟨stdout, _, hrun⟩ := Fault.ok_of_bind hrun
  obtain ⟨stdin, _, hrun⟩ := Fault.ok_of_bind hrun
  cases hrun
  refine ⟨rfl, ⟨Nat.le_succ_of_le ho.le, ?_, ?_⟩, by simp, ?_⟩
  · have haddrs := ho.addrs
    have hle := ho.le
    rw [hcommand, Option.toList_none, List.append_nil] at haddrs
    dsimp only
    rw [List.map_append, haddrs, Nat.succ_sub hle, List.range'_concat]
    simp [commandNew, Nat.add_sub_cancel' hle]
  · rintro cmd hcmd
    cases hcmd
    exact ⟨rfl, rfl, rfl⟩
  · obtain ⟨t, ht, hholds⟩ := TextBuffer.reset_holds m.fsm.buffer
    cases hbuffer.symm.trans ht
    exact hholds.len

theorem setMask_owns {mask : Connection → Connection} (hrun : m.setMask mask = .ok m')
    (ho : m.Owns created) (hp : m.Pends .held) :
    m'.fsm.cs = m.fsm.cs ∧ m'.Owns created ∧ m'.Pends .held := by
  unfold setMask at hrun
  split at hrun
  · cases hrun
  · next command hcommand =>
    cases hrun
    refine ⟨rfl, ⟨ho.le, ?_, ?_⟩, by simp, hp.2⟩
    · have haddrs := ho.addrs
      rw [hcommand] at haddrs
      simpa using haddrs
    · rintro cmd hcmd
      cases hcmd
      exact ho.bare command hcommand

theorem redirectPath_created {t : TextBuffer} {path : Option CString} {ss : Session}
    {r : Option CString × Session} (hrun : redirectPath wordexp t path ss = .ok r) :
    r.2.created = ss.created := by
  unfold redirectPath at hrun
  split at hrun
  · cases hrun
  · split at hrun
    · obtain ⟨text, _, hrun⟩ := Fault.ok_of_bind hrun
      cases hrun
      rfl
    · cases hrun
      rfl

theorem insertCommand_owns {command : Command} {words : List CString}
    (hrun : insertCommand wordexp command words m = .ok m') (hcommand : m.command = some command)
    (ho : m.Owns created) : m'.fsm.cs = m.fsm.cs ∧ m'.Owns created ∧ m'.command = none := by
  obtain ⟨stdin, hin, hrun⟩ := Fault.ok_of_bind hrun
  obtain ⟨stdout, hout, hrun⟩ := Fault.ok_of_bind hrun
  cases hrun
  have hcreated := (redirectPath_created hout).trans (redirectPath_created hin)
  refine ⟨rfl, ⟨hcreated ▸ ho.le, ?_, fun cmd hcmd => by cases hcmd⟩, rfl⟩
  have haddrs := ho.addrs
  rw [hcommand] at haddrs
  dsimp only
  rw [hcreated]
  simpa [queueInsert] using haddrs

theorem term_owns (hrun : m.term wordexp = .ok done) (ho : m.Owns created) (hp : m.Pends h)
    (hact : h.act 4 = some h') :
    done.1.fsm.cs = m.fsm.cs ∧ done.1.Owns created ∧ (done.2 = false → done.1.Pends h') := by
  unfold term at hrun
  cases h with
  | queued => cases hact
  | idle =>
    cases hact
    rw [hp.2] at hrun
    cases hrun
    exact ⟨rfl, ho, fun _ => hp⟩
  | fresh =>
    cases hact
    rw [hp.2] at hrun
    cases hrun
    exact ⟨rfl, ho, fun _ => hp⟩
  | held =>
    cases hact
    obtain ⟨hcommand, n, hlen⟩ := hp
    rw [hlen] at hrun
    simp only [if_pos (Nat.succ_pos n)] at hrun
    obtain ⟨text, _, hrun⟩ := Fault.ok_of_bind hrun
    have hcreated : (expandGlob wordexp (expandAliasIn text m.session).1
        (expandAliasIn text m.session).2).2.created = m.session.created := rfl
    split at hrun
    · next ss hglob =>
      cases hrun
      rw [hglob] at hcreated
      have hstays : Stays m { m with session := ss } := ⟨rfl, rfl, rfl, hcreated⟩
      exact ⟨rfl, hstays.owns ho, fun h => by cases h⟩
    · cases hrun
    · next words ss command hglob hsome =>
      obtain ⟨m₁, hinsert, hrun⟩ := Fault.ok_of_bind hrun
      cases hrun
      rw [hglob] at hcreated
      have hstays : Stays m { m with session := ss } := ⟨rfl, rfl, rfl, hcreated⟩
      obtain ⟨hcs, howns, hnone⟩ := insertCommand_owns hinsert hsome (hstays.owns ho)
      exact ⟨hcs, howns, fun _ => hnone⟩

theorem action_owns (hrun : m.action wordexp c code = .ok done) (ho : m.Owns created)
    (hp : m.Pends h) (hact : h.act code = some h') :
    done.1.fsm.cs = m.fsm.cs ∧ done.1.Owns created ∧ (done.2 = false → done.1.Pends h') := by
  cases action_acted hrun with
  | @append t happ =>
    have hstays : Stays m { m with fsm := { m.fsm with buffer := t } } := ⟨rfl, rfl, rfl, rfl⟩
    refine ⟨rfl, hstays.owns ho, fun _ => ?_⟩
    cases h with
    | idle => cases hact
    | queued => cases hact
    | fresh =>
      cases hact
      exact ⟨hp.1, append_len happ⟩
    | held =>
      cases hact
      exact ⟨hp.1, append_len happ⟩
  | @appendIn t happ =>
    have hstays : Stays m { m with fsm := { m.fsm with stdin := t } } := ⟨rfl, rfl, rfl, rfl⟩
    cases hact
    exact ⟨rfl, hstays.owns ho, fun _ => hstays.pends rfl hp⟩
  | @appendOut t happ =>
    have hstays : Stays m { m with fsm := { m.fsm with stdout := t } } := ⟨rfl, rfl, rfl, rfl⟩
    cases hact
    exact ⟨rfl, hstays.owns ho, fun _ => hstays.pends rfl hp⟩
  | new hnew hframe =>
    cases h with
    | fresh => cases hact
    | held => cases hact
    | idle =>
      cases hact
      obtain ⟨hcs, howns, hpends⟩ := new_owns hnew hp.1 ho
      exact ⟨hcs, howns, fun _ => hpends⟩
    | queued =>
      cases hact
      obtain ⟨hcs, howns, hpends⟩ := new_owns hnew hp ho
      exact ⟨hcs, howns, fun _ => hpends⟩
  | term hterm hframe hfsm => exact term_owns hterm ho hp hact
  | setMask hcode hmask hframe hfsm =>
    obtain ⟨rfl, rfl⟩ := Holding.held_of_act hcode hact
    obtain ⟨hcs, howns, hpends⟩ := setMask_owns hmask ho hp
    exact ⟨hcs, howns, fun _ => hpends⟩
  | none hcode =>
    exfalso
    unfold Holding.act at hact
    split at hact <;> simp_all

theorem runActions_owns (hrun : m.runActions wordexp c acts = .ok done) (ho : m.Owns created)
    (hp : m.Pends h) (hact : h.actAll acts = some h') :
    done.1.fsm.cs = m.fsm.cs ∧ done.1.Owns created ∧ (done.2 = false → done.1.Pends h') := by
  induction acts generalizing m h with
  | nil =>
    cases hrun
    cases hact
    exact ⟨rfl, ho, fun _ => hp⟩
  | cons code acts ih =>
    obtain ⟨h₁, hact₁, hact⟩ := Option.bind_eq_some_iff.mp hact
    obtain ⟨done₁, hrun₁, hrun⟩ := Fault.ok_of_bind hrun
    obtain ⟨hcs₁, ho₁, hp₁⟩ := action_owns hrun₁ ho hp hact₁
    split at hrun
    · next hleft =>
      cases hrun
      exact ⟨hcs₁, ho₁, fun hnot => by rw [hleft] at hnot; cases hnot⟩
    · next hleft =>
      obtain ⟨hcs, howns, hpends⟩ := ih hrun ho₁ (hp₁ (Bool.eq_false_iff.mpr hleft)) hact
      exact ⟨hcs.trans hcs₁, howns, hpends⟩

/-! The loop. -/

/-- The machine is in a live state and has pending what the state says. -/
structure InState (m : Machine) (created : Nat) (s : ParserState) : Prop where
  live : s ∈ ParserState.live
  cs : m.fsm.cs = s.code
  pends : m.Pends (.ofState s)
  owns : m.Owns created

theorem InState.setCs (hm : m.InState created s) (cs : Nat) :
    (m.setCs cs).Owns created ∧ (m.setCs cs).Pends (.ofState s) := by
  refine ⟨⟨hm.owns.le, hm.owns.addrs, hm.owns.bare⟩, ?_⟩
  have hp := hm.pends
  cases hh : Holding.ofState s <;> rw [hh] at hp <;> exact hp

/-- A turn ends in the error where it started, or runs the actions of its transition and moves on by
one byte. -/
theorem turn_cases (hrun : m.turn wordexp c = .ok done) (hm : m.InState created s) :
    (s.step (classify c) = (.error, []) ∧ done = (m.setCs parserError, true)) ∨
      ∃ done₁ h', (m.setCs (s.step (classify c)).1.code).runActions wordexp c
          (s.step (classify c)).2 = .ok done₁ ∧
        (Holding.ofState s).actAll (s.step (classify c)).2 = some h' ∧
        done₁.1.fsm.cs = (s.step (classify c)).1.code ∧ done₁.1.fsm.cs ≠ parserError ∧
        done = ({ done₁.1 with p := done₁.1.p + 1 }, done₁.2) ∧
        (c ≠ 0 → (s.step (classify c)).1 ∈ ParserState.live ∧
          h' = .ofState (s.step (classify c)).1) := by
  obtain ⟨done₁, hrun₁, hrun⟩ := Fault.ok_of_bind hrun
  rw [hm.cs, ParserState.parserNext_eq hm.live] at hrun₁
  obtain ⟨howns, hpends⟩ := hm.setCs (s.step (classify c)).1.code
  have hmoves : ∀ h', (Holding.ofState s).actAll (s.step (classify c)).2 = some h' →
      (s.step (classify c)).1 ≠ .error →
      done₁.1.fsm.cs = (s.step (classify c)).1.code ∧ done₁.1.fsm.cs ≠ parserError ∧
        done = ({ done₁.1 with p := done₁.1.p + 1 }, done₁.2) := by
    intro h' hact hne
    have hcs : done₁.1.fsm.cs = (s.step (classify c)).1.code :=
      (runActions_owns hrun₁ howns hpends hact).1
    have hcode : done₁.1.fsm.cs ≠ parserError := fun he =>
      hne (ParserState.code_eq_zero_iff.mp (hcs.symm.trans he))
    refine ⟨hcs, hcode, ?_⟩
    rw [if_neg hcode] at hrun
    split at hrun
    · next hleft =>
      cases hrun
      rw [hleft]
    · next hstay =>
      cases hrun
      rw [Bool.eq_false_iff.mpr hstay]
  rcases Holding.step_actAll hm.live (classify c) with hstep | ⟨_, hlive, hact⟩ |
    ⟨hnul, hstep, hact⟩
  · left
    rw [hstep] at hrun₁
    cases hrun₁
    cases hrun
    exact ⟨hstep, rfl⟩
  · right
    have hne : (s.step (classify c)).1 ≠ .error := by
      intro he
      rw [he] at hlive
      revert hlive
      decide
    obtain ⟨hcs, hcode, hdone⟩ := hmoves _ hact hne
    exact ⟨done₁, _, hrun₁, hact, hcs, hcode, hdone, fun _ => ⟨hlive, rfl⟩⟩
  · right
    obtain ⟨h', hact⟩ := Option.isSome_iff_exists.mp hact
    have hall : (Holding.ofState s).actAll (s.step (classify c)).2 = some h' := by
      simp [hstep, Holding.actAll, hact]
    obtain ⟨hcs, hcode, hdone⟩ := hmoves _ hall (by rw [hstep]; decide)
    exact ⟨done₁, h', hrun₁, hall, hcs, hcode, hdone,
      fun hc => absurd ((classify_eq_iff c).1.mp hnul) hc⟩

theorem turn_owns (hrun : m.turn wordexp c = .ok done) (hm : m.InState created s) :
    done.1.Owns created ∧
      (done.2 = false → c ≠ 0 → done.1.InState created (s.step (classify c)).1) := by
  obtain ⟨howns, hpends⟩ := hm.setCs (s.step (classify c)).1.code
  obtain ⟨hstep, rfl⟩ | ⟨done₁, h', hrun₁, hact, hcs, _, rfl, hnext⟩ := turn_cases hrun hm
  · exact ⟨(hm.setCs parserError).1, fun hleft => by cases hleft⟩
  · obtain ⟨_, ho, hp⟩ := runActions_owns hrun₁ howns hpends hact
    refine ⟨⟨ho.le, ho.addrs, ho.bare⟩, fun hleft hc => ?_⟩
    obtain ⟨hlive, rfl⟩ := hnext hc
    refine ⟨hlive, hcs, ?_, ⟨ho.le, ho.addrs, ho.bare⟩⟩
    have hp' := hp hleft
    cases hh : Holding.ofState (s.step (classify c)).1 <;> rw [hh] at hp' <;> exact hp'

theorem exec_owns {line : CString} (hrun : m.exec wordexp (line ++ [0]) = .ok m')
    (hline : ∀ c ∈ line, c ≠ 0) (hm : m.InState created s) : m'.Owns created := by
  induction line generalizing m s with
  | nil =>
    obtain ⟨done, hturn, hrun⟩ := Fault.ok_of_bind hrun
    have howns := (turn_owns hturn hm).1
    split at hrun
    · cases hrun
      exact howns
    · cases hrun
      exact howns
  | cons c line ih =>
    obtain ⟨hc, hline⟩ := List.forall_mem_cons.mp hline
    obtain ⟨done, hturn, hrun⟩ := Fault.ok_of_bind hrun
    obtain ⟨howns, hnext⟩ := turn_owns hturn hm
    split at hrun
    · cases hrun
      exact howns
    · next hstay =>
      exact ih hrun hline (hnext (Bool.eq_false_iff.mpr hstay) hc)

theorem inState_start (ss : Session) : (parseStart ss).InState ss.created .start := by
  refine ⟨by decide, rfl, ⟨rfl, rfl⟩, le_rfl, ?_, fun cmd hcmd => by cases hcmd⟩
  simp [parseStart, queueNew]

end Machine

/-- The commands created by a parse are those it discarded, those it returns and the pending one,
which has received nothing. -/
structure Parse.Owns (r : Parse) (created : Nat) : Prop where
  addrs : (r.discarded ++ r.queue ++ r.leftover.toList).map (·.addr) =
    List.range' created (r.session.created - created)
  bare : ∀ cmd, r.leftover = some cmd →
    cmd.argv = none ∧ cmd.redirectToPath = none ∧ cmd.redirectFromPath = none

theorem parseInput_owns {wordexp : Wordexp} {ss : Session} {line : CString} {r : Parse}
    (hline : ∀ c ∈ line, c ≠ 0) (hparse : parseInput wordexp ss line = .ok r) :
    r.Owns ss.created := by
  obtain ⟨m, hexec, hr⟩ := Fault.ok_of_bind hparse
  cases hr
  have howns := Machine.exec_owns hexec hline (Machine.inState_start ss)
  refine ⟨Eq.trans ?_ howns.addrs, howns.bare⟩
  by_cases hcs : m.fsm.cs = parserError
  · simp [parseEnd, hcs, queueNew]
  · simp [parseEnd, hcs]

end Redshell
