import Redshell.Complex
import Redshell.Parser

/-! The states of the generated machine, as what was read of a line. -/
namespace Redshell

inductive ParserState where
  | error
  | start
  | command
  | background
  | joined
  | lead
  | inGap
  | inText
  | inOutGap
  | inOutText
  | outGap
  | outText
  | outInGap
  | outInText
  | firstLead
  | final
  deriving DecidableEq

namespace ParserState

/-- The number of the state in parser.c. -/
def code : ParserState → Nat
  | error => 0
  | start => 1
  | command => 2
  | background => 3
  | joined => 4
  | lead => 5
  | inGap => 6
  | inText => 7
  | inOutGap => 8
  | inOutText => 9
  | outGap => 10
  | outText => 11
  | outInGap => 12
  | outInText => 13
  | firstLead => 14
  | final => 15

/-- What a string's state does with a byte that goes on with the string or ends the complex. -/
def stepText (s : ParserState) (append : Nat) : ByteClass → ParserState × List Nat
  | .nul => (final, [4])
  | .space => (s, [append])
  | .word => (s, [append])
  | .seq => (joined, [7])
  | .pipe => (joined, [5])
  | .bg => (background, [6])
  | _ => (error, [])

/-- What the state of a gap does: a word starts the string. -/
def stepGap (s text : ParserState) (append : Nat) : ByteClass → ParserState × List Nat
  | .space => (s, [])
  | .word => (text, [append])
  | _ => (error, [])

/-- The next state and the codes of the actions for a byte of this class. -/
def step : ParserState → ByteClass → ParserState × List Nat
  | start, .nul => (final, [4])
  | start, .space => (firstLead, [3])
  | start, .word => (command, [3, 0])
  | command, .stdin => (inGap, [])
  | command, .stdout => (outGap, [])
  | command, c => stepText command 0 c
  | background, .nul => (final, [4])
  | background, .space => (background, [])
  | background, .seq => (joined, [7])
  | background, .pipe => (joined, [5])
  | joined, .space => (lead, [4, 3])
  | joined, .word => (command, [4, 3, 0])
  | lead, c => stepGap lead command 0 c
  | inGap, c => stepGap inGap inText 1 c
  | inText, .stdout => (inOutGap, [])
  | inText, c => stepText inText 1 c
  | inOutGap, c => stepGap inOutGap inOutText 2 c
  | inOutText, c => stepText inOutText 2 c
  | outGap, c => stepGap outGap outText 2 c
  | outText, .stdin => (outInGap, [])
  | outText, c => stepText outText 2 c
  | outInGap, c => stepGap outInGap outInText 1 c
  | outInText, c => stepText outInText 1 c
  | firstLead, .nul => (final, [4])
  | firstLead, c => stepGap firstLead command 0 c
  | _, _ => (error, [])

/-- The states of the loop when it reads a byte. -/
def live : List ParserState :=
  [start, command, background, joined, lead, inGap, inText, inOutGap, inOutText, outGap, outText,
   outInGap, outInText, firstLead]

theorem parserNext_bytes : ∀ s ∈ live, ∀ n < 256,
    parserNext s.code (UInt8.ofNat n) =
      ((s.step (classify (UInt8.ofNat n))).1.code, (s.step (classify (UInt8.ofNat n))).2) := by
  decide +kernel

/-- The packed tables and their two searches are the transition function, on every byte. -/
theorem parserNext_eq {s : ParserState} (hs : s ∈ live) (c : UInt8) :
    parserNext s.code c = ((s.step (classify c)).1.code, (s.step (classify c)).2) := by
  have hc := parserNext_bytes s hs c.toNat c.toNat_lt
  rwa [UInt8.ofNat_toNat] at hc

theorem code_eq_zero_iff {s : ParserState} : s.code = 0 ↔ s = error := by
  cases s <;> decide

end ParserState

open ParserState

namespace Complex

/-- The state in a complex with these parts, the latest one complete or not. -/
def place (first : Bool) (kinds : List Kind) (complete : Bool) : ParserState :=
  match kinds, complete with
  | [.command], false => if first then .firstLead else .lead
  | [.command], true => .command
  | [.stdin, .command], false => .inGap
  | [.stdin, .command], true => .inText
  | [.stdout, .command], false => .outGap
  | [.stdout, .command], true => .outText
  | [.stdout, .stdin, .command], false => .inOutGap
  | [.stdout, .stdin, .command], true => .inOutText
  | [.stdin, .stdout, .command], false => .outInGap
  | [.stdin, .stdout, .command], true => .outInText
  | _, _ => .error

/-- The state of the machine while it reads a complex, the first of its line or a later one. -/
def state (first : Bool) (g : Complex) : ParserState :=
  match g.background with
  | some _ => .background
  | none => place first g.kinds (decide g.Complete)

/-- The code of the action that appends to a part. -/
def appendCode : Kind → Nat
  | .command => 0
  | .stdin => 1
  | .stdout => 2

/-- The codes of the actions for a byte that the complex takes in. -/
def actions (g : Complex) (c : UInt8) : List Nat :=
  if g.background.isSome then []
  else
    match classify c with
    | .word => [appendCode g.current.kind]
    | .space => if g.Complete then [appendCode g.current.kind] else []
    | .bg => [6]
    | _ => []

variable {g g' : Complex} {c : UInt8} {first : Bool}

theorem place_mem_live : ∀ ks ∈ orders, ∀ first b, place first ks b ∈ live := by decide

theorem step_place_word : ∀ ks ∈ orders, ∀ first b,
    (place first ks b).step .word =
      (place first ks true, [appendCode (ks.headD .command)]) := by decide

theorem step_place_space : ∀ ks ∈ orders, ∀ first b,
    (place first ks b).step .space =
      (place first ks b, if b then [appendCode (ks.headD .command)] else []) := by decide

theorem step_place_redirect : ∀ ks ∈ orders, ∀ first b,
    (place first ks b).step .stdin =
        (if b = true ∧ Kind.stdin ∉ ks then place first (.stdin :: ks) false else error, []) ∧
      (place first ks b).step .stdout =
        (if b = true ∧ Kind.stdout ∉ ks then place first (.stdout :: ks) false else error, []) := by
  decide

theorem step_place_bg : ∀ ks ∈ orders, ∀ first b,
    (place first ks b).step .bg =
      if b then (.background, [6]) else (error, []) := by decide

/-- What ends a complete complex is an action of its own; only a blank line may end before. -/
theorem step_place_close : ∀ ks ∈ orders, ∀ first b,
    (place first ks b).step .seq = (if b then (joined, [7]) else (error, [])) ∧
      (place first ks b).step .pipe = (if b then (joined, [5]) else (error, [])) ∧
      (place first ks b).step .nul =
        (if b = true ∨ first = true ∧ ks = [.command] then (final, [4]) else (error, [])) := by
  decide

theorem state_mem_live (first : Bool) (hw : g.WellFormed) : g.state first ∈ live := by
  unfold state
  split
  · decide
  · exact place_mem_live _ hw.order first _

theorem complete_pushText (g : Complex) (c : UInt8) : (g.pushText c).Complete := by
  simp [Complete, pushText]

theorem state_redirect (first : Bool) (k : Kind) (hb : g.background = none) :
    (match g.redirect k with
      | some g' => (g'.state first, ([] : List Nat))
      | none => (error, [])) =
      (if g.Complete ∧ k ∉ g.kinds then place first (k :: g.kinds) false else error, []) := by
  by_cases hk : g.Complete ∧ k ∉ g.kinds
  · have hr : g.redirect k = some { g with current := ⟨k, [], []⟩, done := g.parts } := if_pos hk
    rw [hr, if_pos hk]
    simp [state, hb, kinds, parts, Complete]
  · have hr : g.redirect k = none := if_neg hk
    rw [hr, if_neg hk]

/-- The machine follows the complex byte by byte. -/
theorem state_push (first : Bool) (hw : g.WellFormed)
    (hc : classify c ≠ .nul ∧ classify c ≠ .seq ∧ classify c ≠ .pipe) :
    (g.state first).step (classify c) =
      match g.push c with
      | some g' => (g'.state first, g.actions c)
      | none => (error, []) := by
  have horder := hw.order
  obtain ⟨hnul, hseq, hpipe⟩ := hc
  cases hb : g.background with
  | some trail =>
    cases hcl : classify c <;> simp_all [push, state, step, actions]
  | none =>
    have hstate : g.state first = place first g.kinds (decide g.Complete) := by simp [state, hb]
    have htext : (g.pushText c).state first = place first g.kinds true := by
      have hcomp := complete_pushText g c
      simp [state, pushText, hb, kinds, parts] at hcomp ⊢
      simp [hcomp]
    rw [hstate]
    cases hcl : classify c with
    | nul => exact absurd hcl hnul
    | seq => exact absurd hcl hseq
    | pipe => exact absurd hcl hpipe
    | word =>
      rw [step_place_word _ horder]
      simp only [push, hb, hcl, htext]
      simp [actions, hb, hcl, kinds, parts]
    | space =>
      rw [step_place_space _ horder]
      by_cases ht : g.current.text = []
      · simp [push, hb, hcl, ht, actions, state, pushGap, kinds, parts, Complete]
      · have hcomp : g.Complete := ht
        simp only [push, hb, hcl, if_neg ht, htext]
        simp [actions, hb, hcl, hcomp, kinds, parts]
    | stdin =>
      rw [(step_place_redirect _ horder _ _).1]
      have hr := state_redirect first .stdin hb
      simp only [push, hb, hcl, actions, decide_eq_true_eq]
      exact hr.symm
    | stdout =>
      rw [(step_place_redirect _ horder _ _).2]
      have hr := state_redirect first .stdout hb
      simp only [push, hb, hcl, actions, decide_eq_true_eq]
      exact hr.symm
    | bg =>
      rw [step_place_bg _ horder]
      by_cases ht : g.current.text = []
      · simp [push, hb, hcl, ht, Complete]
      · simp [push, hb, hcl, ht, Complete, state, actions]

end Complex

end Redshell
