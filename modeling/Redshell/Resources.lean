import Redshell.Accepted
import Redshell.Observer
import Redshell.Turns

/-! What the executor closes, waits for and reads from its arrays. -/
namespace Redshell

abbrev JobEvent := Event Redirection Routine

/-- The descriptor numbers that a call returns. -/
def Event.numbers : JobEvent → List Int
  | dup _ result => [result]
  | openFile _ result => [result]
  | pipe read write => if read = -1 then [] else [read, write]
  | _ => []

/-- The events of the shell itself, so far. -/
abbrev History := Set JobEvent

namespace History

def Returned (m : History) (fd : Int) : Prop := ∃ event ∈ m, fd ∈ event.numbers

def Forked (m : History) (pid : Int) : Prop := 0 < pid ∧ ∃ i, Event.fork i pid ∈ m

def Stored (m : History) (array : Arr) (j : Int) : Prop := Event.call (.store array j) ∈ m

end History

/-- The number of elements in a call with so many commands. -/
def Arr.size (n : Nat) : Arr → Nat
  | pipes => 2 * (n - 1)
  | launched => n

def Arr.InRange (array : Arr) (n : Nat) (j : Int) : Prop := 0 ≤ j ∧ j < array.size n

/-- The accesses to the arrays that are allowed: `own` for assigned elements, `bounded` for
subscripts of `pipes` in range. -/
def Access (own bounded : Prop) (q : Queue) (m : History) : Routine → Prop
  | .load array j => (own → array.InRange q.length j → m.Stored array j) ∧
      (bounded → array = .pipes → array.InRange q.length j)
  | .store .pipes j => bounded → Arr.pipes.InRange q.length j
  | _ => True

/-- What the shell may do, and its children: `own` for closing what a call returned to the shell
and waiting for what it forked. -/
def usage (own bounded : Prop) (q : Queue) : Observer History Redirection Routine where
  learns m event := insert event m
  allows m
    | .close fd => own → m.Returned fd
    | .waitpid pid => own → m.Forked pid
    | .reap pid => own → m.Forked pid
    | .call routine => Access own bounded q m routine
    | _ => True
  allowsChild m
    | .call routine => Access own bounded q m routine
    | _ => True

variable {own bounded : Prop} {m m' : History} {host : Host} {supply : Supply} {l l' : Locals}
  {cmd : Command} {queue q : Queue} {fd : Int} {stack : Stack} {array : Arr} {j pid : Int}
  {event : JobEvent} {α : Type}

theorem History.Returned.mono (h : m.Returned fd) (hm : m ⊆ m') : m'.Returned fd := by
  obtain ⟨event, hevent, hfd⟩ := h
  exact ⟨event, hm hevent, hfd⟩

theorem History.Forked.mono (h : m.Forked pid) (hm : m ⊆ m') : m'.Forked pid := by
  obtain ⟨hpos, i, hfork⟩ := h
  exact ⟨hpos, i, hm hfork⟩

theorem History.returned_insert (h : fd ∈ event.numbers) : (insert event m : History).Returned fd :=
  ⟨event, Set.mem_insert event m, h⟩

/-- A number that is closed when it is not -1. -/
def History.Opened (m : History) (fd : Int) : Prop := fd = -1 ∨ m.Returned fd

theorem History.Opened.mono (h : m.Opened fd) (hm : m ⊆ m') : m'.Opened fd :=
  h.imp_right fun hreturned => hreturned.mono hm

/-- What is known when a part of the executor is over is at least what was known before. -/
abbrev KeepsUsage {α : Type} (host : Host) (supply : Supply) (own bounded : Prop) (q : Queue)
    (p : Job α) (m : History) (Q : α → History → Prop) : Prop :=
  Keeps (host.systemIn supply) (usage own bounded q) p m fun a m' => m ⊆ m' ∧ Q a m'

theorem waitForLast_keeps (h : l.pid = -1 ∨ m.Forked l.pid) :
    KeepsUsage host supply own bounded q (waitForLast l) m fun _ _ => True := by
  unfold waitForLast
  split
  · exact ⟨subset_rfl, trivial⟩
  · split
    · next hwaits => exact ⟨fun _ => h.resolve_left hwaits.1, Set.subset_insert _ _, trivial⟩
    · exact ⟨subset_rfl, trivial⟩

theorem closeOpened_keeps (h : m.Opened fd) :
    KeepsUsage host supply own bounded q (closeOpened fd) m fun _ _ => True := by
  unfold closeOpened
  split
  · next hfd => exact ⟨fun _ => h.resolve_left hfd, Set.subset_insert _ _, trivial⟩
  · exact ⟨subset_rfl, trivial⟩

theorem dupOpened_keeps (fd : Int) (stream : Nat) :
    KeepsUsage host supply own bounded q (dupOpened fd stream) m fun _ _ => True := by
  unfold dupOpened
  split
  · exact ⟨trivial, Set.subset_insert _ _, trivial⟩
  · exact ⟨subset_rfl, trivial⟩

theorem freeLast_keeps (l : Locals) :
    KeepsUsage host supply own bounded q (freeLast l) m fun _ _ => True := by
  unfold freeLast
  split
  · exact ⟨subset_rfl, trivial⟩
  · exact ⟨trivial, fun _ => ⟨Set.subset_insert _ _, trivial⟩⟩

theorem restore_keeps (l : Locals) :
    KeepsUsage host supply own bounded q (restore l) m fun _ _ => True :=
  ⟨trivial, trivial, (Set.subset_insert _ _).trans (Set.subset_insert _ _), trivial⟩

theorem redirectInput_keeps (hin : l.fdIn = -1) :
    KeepsUsage host supply own bounded q (redirectInput l cmd) m fun r m' =>
      host.fails l.i false cmd.redirectFromPath = r.isNone ∧
        ∀ l' ∈ r, ∃ fd, l' = { l with fdIn := fd } ∧ m'.Opened fd := by
  unfold redirectInput
  cases hpath : cmd.redirectFromPath with
  | none =>
    refine ⟨subset_rfl, rfl, ?_⟩
    rintro _ ⟨⟩
    exact ⟨l.fdIn, rfl, .inl hin⟩
  | some path =>
    intro r hr
    refine ⟨trivial, ?_⟩
    change r = -1 ↔ host.opens _ = false at hr
    by_cases hfd : r = -1
    · dsimp only
      rw [if_pos hfd]
      refine ⟨trivial, fun _ => ⟨?_, ?_, ?_⟩⟩
      · exact (Set.subset_insert _ _).trans (Set.subset_insert _ _)
      · simp [Host.fails, hr.mp hfd]
      · rintro _ ⟨⟩
    · dsimp only
      rw [if_neg hfd]
      refine ⟨Set.subset_insert _ _, ?_, ?_⟩
      · rw [hr, Bool.not_eq_false] at hfd
        simp [Host.fails, hfd]
      · rintro _ ⟨⟩
        exact ⟨r, rfl, .inr (History.returned_insert (List.mem_singleton_self r))⟩

/-- What is closed on a failed `open` is the -1 that it returned. -/
theorem redirectOutput_keeps (hout : l.fdOut = -1) :
    KeepsUsage host supply own bounded q (redirectOutput l cmd) m fun r m' =>
      host.fails l.i true cmd.redirectToPath = r.isNone ∧
        ∀ l' ∈ r, ∃ fd, l' = { l with fdOut := fd } ∧ m'.Opened fd := by
  unfold redirectOutput
  cases hpath : cmd.redirectToPath with
  | none =>
    refine ⟨subset_rfl, rfl, ?_⟩
    rintro _ ⟨⟩
    exact ⟨l.fdOut, rfl, .inl hout⟩
  | some path =>
    intro r hr
    refine ⟨trivial, ?_⟩
    change r = -1 ↔ host.opens _ = false at hr
    have hreturned : ∀ name, (insert (Event.openFile name r) m : History).Returned r :=
      fun name => History.returned_insert (List.mem_singleton_self r)
    by_cases hfd : r = -1
    · dsimp only
      rw [if_pos hfd]
      refine ⟨trivial, fun _ => ?_⟩
      have hnone : ∀ m', m ⊆ m' → m ⊆ m' ∧ (host.fails l.i true (some path) =
          (none : Option Locals).isNone ∧ ∀ l' ∈ (none : Option Locals),
            ∃ fd, l' = { l with fdOut := fd } ∧ m'.Opened fd) := by
        intro m' hm
        refine ⟨hm, ?_, ?_⟩
        · simp [Host.fails, hr.mp hfd]
        · rintro _ ⟨⟩
      have hsub := (Set.subset_insert (Event.openFile ⟨l.i, true, path⟩ r) m).trans
        (Set.subset_insert (Event.call (.report path)) _)
      split
      · next hin =>
        refine ⟨fun _ => ?_, hnone _ (hsub.trans (Set.subset_insert _ _))⟩
        rw [hin, ← hfd]
        exact (hreturned _).mono (Set.subset_insert _ _)
      · exact hnone _ hsub
    · dsimp only
      rw [if_neg hfd]
      refine ⟨Set.subset_insert _ _, ?_, ?_⟩
      · rw [hr, Bool.not_eq_false] at hfd
        simp [Host.fails, hfd]
      · rintro _ ⟨⟩
        exact ⟨r, rfl, .inr (hreturned _)⟩

/-- The numbers that a turn may close later, and the pid it may wait for. -/
structure Clean (l : Locals) (m : History) : Prop where
  fdIn : m.Opened l.fdIn
  fdOut : m.Opened l.fdOut
  pid : l.pid = -1 ∨ m.Forked l.pid

theorem prepare_keeps (h : Clean l m) :
    KeepsUsage host supply own bounded q (prepare l cmd) m fun r m' =>
      host.failsAt l.i cmd = r.isNone ∧
        ∀ l' ∈ r, Clean l' m' ∧
          l' = { l with fdIn := l'.fdIn, fdOut := l'.fdOut } := by
  unfold prepare
  refine (waitForLast_keeps h.pid).bind fun _ m₁ hkept => ?_
  obtain ⟨hm₁, _⟩ := hkept
  refine (closeOpened_keeps (h.fdIn.mono hm₁)).bind fun _ m₂ hkept => ?_
  obtain ⟨hm₂, _⟩ := hkept
  refine (closeOpened_keeps (h.fdOut.mono (hm₁.trans hm₂))).bind fun _ m₃ hkept => ?_
  obtain ⟨hm₃, _⟩ := hkept
  refine (redirectInput_keeps rfl).bind fun input m₄ hkept => ?_
  obtain ⟨hm₄, hfails, hinput⟩ := hkept
  have hsub := ((hm₁.trans hm₂).trans hm₃).trans hm₄
  cases input with
  | none =>
    refine ⟨hsub, ?_, ?_⟩
    · change host.fails l.i false _ = true at hfails
      rw [Host.failsAt, hfails]
      rfl
    · rintro _ ⟨⟩
  | some l₁ =>
    obtain ⟨fdIn, rfl, hopened⟩ := hinput l₁ rfl
    change host.fails l.i false _ = false at hfails
    refine (redirectOutput_keeps rfl).bind fun output m₅ hkept => ?_
    obtain ⟨hm₅, hfails', houtput⟩ := hkept
    change host.fails l.i true _ = _ at hfails'
    cases output with
    | none =>
      refine ⟨hsub.trans hm₅, ?_, ?_⟩
      · rw [Host.failsAt, hfails, hfails']
        rfl
      · rintro _ ⟨⟩
    | some l₂ =>
      obtain ⟨fdOut, rfl, hopened'⟩ := houtput l₂ rfl
      refine (dupOpened_keeps fdIn 0).bind fun _ m₆ hkept => ?_
      obtain ⟨hm₆, _⟩ := hkept
      refine (dupOpened_keeps fdOut 1).bind fun _ m₇ hkept => ?_
      obtain ⟨hm₇, _⟩ := hkept
      have hlate := hm₆.trans hm₇
      refine ⟨(hsub.trans hm₅).trans hlate, ?_, ?_⟩
      · rw [Host.failsAt, hfails, hfails']
        rfl
      · rintro _ ⟨⟩
        refine ⟨⟨hopened.mono (hm₅.trans hlate), hopened'.mono hlate, ?_⟩, rfl⟩
        exact h.pid.imp_right fun hforked => hforked.mono ((hsub.trans hm₅).trans hlate)

/-- The two elements for a pipe are assigned and hold own numbers. -/
def History.Holds (m : History) (pipes : Int → Int) (pair : Nat) : Prop :=
  ∀ j : Int, j = 2 * pair ∨ j = 2 * pair + 1 → m.Stored .pipes j ∧ m.Returned (pipes j)

theorem History.Holds.mono {pipes : Int → Int} {pair : Nat} (h : m.Holds pipes pair)
    (hm : m ⊆ m') : m'.Holds pipes pair :=
  fun j hj => ⟨hm (h j hj).1, (h j hj).2.mono hm⟩

/-- Every element of `pipes` belongs to a pair. -/
theorem exists_pair (count : Nat) (hj : 0 ≤ j) (hlt : j < 2 * (count : Int)) :
    ∃ pair : Nat, pair < count ∧ (j = 2 * pair ∨ j = 2 * pair + 1) := by
  obtain ⟨n, rfl⟩ := Int.eq_ofNat_of_zero_le hj
  exact ⟨n / 2, by omega, by omega⟩

/-- The elements of a pair keep what they hold, unless a `pipe` succeeds for them. -/
theorem makePipes_keeps (l : Locals) (count : Nat) (hcount : count ≤ q.length - 1) :
    KeepsUsage host supply own bounded q (makePipes l count) m fun l' m' =>
      l' = { l with pipes := l'.pipes } ∧ ∀ pair : Nat,
        m.Holds l.pipes pair ∨ (pair < count ∧ supply.pipes l.i pair = true) →
          m'.Holds l'.pipes pair := by
  induction count with
  | zero =>
    refine ⟨subset_rfl, rfl, fun pair hpair => ?_⟩
    exact hpair.resolve_right fun h => Nat.not_lt_zero pair h.1
  | succ count ih =>
    refine (ih (by omega)).bind fun l₁ m₁ ⟨hm₁, hl₁, hholds⟩ => ?_
    intro read write hresult
    have hi : l₁.i = l.i := by rw [hl₁]
    rw [hi] at hresult
    change read = -1 ↔ supply.pipes l.i count = false at hresult
    refine ⟨trivial, ?_⟩
    dsimp only
    split
    · next hread =>
      have hfails := hresult.mp hread
      have hsub := Set.subset_insert (Event.pipe read write) m₁
      refine ⟨hm₁.trans hsub, hl₁, fun pair hpair => (hholds pair ?_).mono hsub⟩
      refine hpair.imp_right fun ⟨hlt, hmade⟩ => ⟨?_, hmade⟩
      rcases Nat.lt_succ_iff_lt_or_eq.mp hlt with hlt | rfl
      · exact hlt
      · rw [hfails] at hmade
        cases hmade
    · next hread =>
      have hrange : ∀ j : Int, j = 2 * count ∨ j = 2 * count + 1 →
          Arr.pipes.InRange q.length j := by
        intro j hj
        simp only [Arr.InRange, Arr.size]
        omega
      refine ⟨fun _ => hrange _ (.inl rfl), fun _ => ⟨fun _ => hrange _ (.inr rfl), fun _ => ?_⟩⟩
      have hnumbers : (Event.pipe read write : JobEvent).numbers = [read, write] := if_neg hread
      have hreturned : ∀ fd ∈ [read, write],
          (insert (Event.pipe read write) m₁ : History).Returned fd := by
        rw [← hnumbers]
        exact fun fd hfd => History.returned_insert hfd
      have hlate := (Set.subset_insert (Event.call (.store .pipes (2 * count)))
        (insert (Event.pipe read write) m₁)).trans
        (Set.subset_insert (Event.call (.store .pipes (2 * count + 1))) _)
      have hsub := (Set.subset_insert (Event.pipe read write) m₁).trans hlate
      refine ⟨hm₁.trans hsub, ?_, fun pair hpair j hj => ?_⟩
      · rw [hl₁]
      dsimp only
      by_cases hpaired : pair = count
      · subst hpaired
        rcases hj with rfl | rfl
        · rw [Function.update_of_ne (by omega), Function.update_self]
          exact ⟨Set.mem_insert_of_mem _ (Set.mem_insert _ _),
            (hreturned read (by simp)).mono hlate⟩
        · rw [Function.update_self]
          exact ⟨Set.mem_insert _ _, (hreturned write (by simp)).mono hlate⟩
      · rw [Function.update_of_ne (by omega), Function.update_of_ne (by omega)]
        exact (hholds pair (hpair.imp_right fun h => ⟨by omega, h.2⟩)).mono hsub j hj

/-- The elements are assigned and hold own numbers. -/
theorem closepipes_keeps {pipes : Int → Int} (count : Nat) (hcount : count ≤ 2 * (q.length - 1))
    (hholds : own → ∀ pair < q.length - 1, m.Holds pipes pair) :
    KeepsUsage host supply own bounded q (closepipes pipes count) m fun _ _ => True := by
  induction count with
  | zero => exact ⟨subset_rfl, trivial⟩
  | succ count ih =>
    refine (ih (by omega)).bind fun _ m₁ ⟨hm₁, _⟩ => ?_
    obtain ⟨pair, hlt, hpair⟩ := exists_pair (q.length - 1) (Int.natCast_nonneg count) (by omega)
    refine ⟨⟨fun hown _ => ?_, fun _ _ => ?_⟩, fun _ => ⟨fun hown => ?_, ?_, trivial⟩⟩
    · exact hm₁ (hholds hown pair hlt count hpair).1
    · simp only [Arr.InRange, Arr.size]
      omega
    · exact (hholds hown pair hlt count hpair).2.mono (hm₁.trans (Set.subset_insert _ _))
    · exact hm₁.trans ((Set.subset_insert _ _).trans (Set.subset_insert _ _))

theorem reapLaunched_keeps {launched : Int → Int} (count : Nat)
    (h : own → ∀ i < count, m.Stored .launched i ∧ m.Forked (launched i)) :
    KeepsUsage host supply own bounded q (reapLaunched launched count) m fun _ _ => True := by
  induction count with
  | zero => exact ⟨subset_rfl, trivial⟩
  | succ count ih =>
    refine (ih fun hown i hi => h hown i (by omega)).bind fun _ m₁ ⟨hm₁, _⟩ => ?_
    have hlast := fun hown => h hown count (Nat.lt_succ_self count)
    refine ⟨⟨fun hown _ => hm₁ (hlast hown).1, fun _ => by rintro ⟨⟩⟩, fun _ =>
      ⟨fun hown => ?_, ?_, trivial⟩⟩
    · exact (hlast hown).2.mono (hm₁.trans (Set.subset_insert _ _))
    · exact hm₁.trans ((Set.subset_insert _ _).trans (Set.subset_insert _ _))

/-! The children. -/

/-- The subscripts that a child may use. -/
def Readable (own bounded : Prop) (q : Queue) (m : History) (j : Int) : Prop :=
  (own → Arr.pipes.InRange q.length j → m.Stored .pipes j) ∧
    (bounded → Arr.pipes.InRange q.length j)

theorem dupPipe_child (h : Readable own bounded q m j) (stream : Nat) :
    Keeps (host.systemIn supply) ((usage own bounded q).child m) (dupPipe l j stream) m'
      fun _ _ => True :=
  ⟨⟨h.1, fun hbounded _ => h.2 hbounded⟩, fun _ => ⟨trivial, trivial⟩⟩

theorem closepipes_child {pipes : Int → Int} (count : Nat)
    (h : ∀ j < count, Readable own bounded q m j) :
    Keeps (host.systemIn supply) ((usage own bounded q).child m) (closepipes pipes count) m'
      fun _ _ => True := by
  induction count with
  | zero => trivial
  | succ count ih =>
    refine (ih fun j hj => h j (by omega)).bind fun _ _ _ => ?_
    have hlast := h count (Nat.lt_succ_self count)
    exact ⟨⟨hlast.1, fun hbounded _ => hlast.2 hbounded⟩, fun _ => ⟨trivial, trivial⟩⟩

theorem queueFree_child (queue : Queue) :
    Keeps (host.systemIn supply) ((usage own bounded q).child m) (queueFree queue) m'
      fun _ _ => True := by
  induction queue generalizing m' with
  | nil => trivial
  | cons cmd queue ih => exact ⟨trivial, fun _ => ih⟩

theorem pipedChild_keeps (hcount : l.nCommands = q.length)
    (hstored : ∀ j, own → Arr.pipes.InRange q.length j → m.Stored .pipes j)
    (hfirst : bounded → 1 ≤ l.i ∧ l.i < q.length)
    (hlast : bounded → cmd.connectionMask = .pipe → l.i + 1 < q.length) :
    Keeps (host.systemIn supply) ((usage own bounded q).child m) (pipedChild l cmd queue : Job α) m'
      fun _ _ => False := by
  unfold pipedChild
  have hconnectFirst :
      Keeps (host.systemIn supply) ((usage own bounded q).child m) (connectFirst l) m'
      fun _ _ => True := by
    unfold connectFirst
    split
    · next hcond =>
      apply dupPipe_child
      refine ⟨hstored 1, fun _ => ?_⟩
      simp only [Arr.InRange, Arr.size]
      omega
    · trivial
  have hinput : Readable own bounded q m (2 * ((l.i : Int) - 1)) := by
    refine ⟨hstored _, fun hbounded => ?_⟩
    have := hfirst hbounded
    simp only [Arr.InRange, Arr.size]
    omega
  have hconnectRest : ∀ m',
      Keeps (host.systemIn supply) ((usage own bounded q).child m) (connectRest l cmd) m'
      fun _ _ => True := by
    intro m'
    unfold connectRest
    split
    · split
      · exact dupPipe_child hinput 0
      · trivial
    · next hmask =>
      refine (dupPipe_child hinput 0).bind fun _ _ _ => dupPipe_child ⟨hstored _, ?_⟩ 1
      intro hbounded
      have := hlast hbounded (not_not.mp hmask)
      simp only [Arr.InRange, Arr.size]
      omega
  refine hconnectFirst.bind fun _ m₁ _ => (hconnectRest m₁).bind fun _ m₂ _ => ?_
  have hclose : Keeps (host.systemIn supply) ((usage own bounded q).child m)
      (closepipes l.pipes (2 * (l.nCommands - 1))) m₂ fun _ _ => True := by
    apply closepipes_child
    intro j hj
    refine ⟨hstored j, fun _ => ?_⟩
    simp only [Arr.InRange, Arr.size]
    omega
  refine hclose.bind fun _ m₃ _ => ⟨trivial, fun status => ?_⟩
  exact ⟨trivial, fun _ => (queueFree_child queue).bind fun _ _ _ => trivial⟩

theorem singleChild_keeps (l : Locals) (cmd : Command) :
    Keeps (host.systemIn supply) ((usage own bounded q).child m) (singleChild l cmd : Job α) m'
      fun _ _ => False :=
  ⟨trivial, fun _ => trivial⟩

/-! The loop. -/

/-- A pipeline that starts before an index gets its `pipe` for a pair of elements. -/
def Assigned (supply : Supply) (q : Queue) (k pair : Nat) : Prop :=
  ∃ start < k, pipedAt q start = true ∧ afterPipeAt q start = false ∧
    supply.pipes start pair = true

theorem Assigned.mono {k k' pair : Nat} (h : Assigned supply q k pair) (hk : k ≤ k') :
    Assigned supply q k' pair := by
  obtain ⟨start, hlt, hmade⟩ := h
  exact ⟨start, lt_of_lt_of_le hlt hk, hmade⟩

/-- What is known at a turn of the numbers and pids in the variables. -/
structure Used (host : Host) (supply : Supply) (q : Queue) (l : Locals) (m : History) : Prop
    extends Clean l m where
  count : l.nCommands = q.length
  index : l.i ≤ q.length
  after : l.afterPipe = afterPipeAt q l.i
  pipes : ∀ pair < q.length - 1, Assigned supply q l.i pair → m.Holds l.pipes pair
  launched : ∀ k < l.i, pipedAt q k = true →
    m.Stored .launched k ∧ ((host.forks k).isSome → m.Forked (l.launched k))

/-- If the loop goes over all commands, each is in a pipeline and gets a child. -/
def AllPiped (host : Host) (q : Queue) : Prop :=
  Continues host q q.length → ∀ i < q.length, pipedAt q i = true ∧ (host.forks i).isSome

/-- Whenever a command of a pipeline gets a child, every element of `pipes` is assigned. -/
def PipesMade (host : Host) (supply : Supply) (q : Queue) : Prop :=
  ∀ k < q.length, Continues host q (k + 1) → pipedAt q k = true → (host.forks k).isSome →
    ∀ pair < q.length - 1, Assigned supply q (k + 1) pair

/-- The first command is followed by a pipe and gets a child. -/
def StartsPiped (host : Host) (q : Queue) : Prop :=
  ∃ cmd, q[0]? = some cmd ∧ cmd.connectionMask = .pipe ∧ host.failsAt 0 cmd = false ∧
    (host.forks 0).isSome

theorem finishQueue_keeps (hused : Used host supply q l m) (hall : own → ∀ i < q.length,
      pipedAt q i = true ∧ (host.forks i).isSome)
    (hmade : own → ∀ pair < q.length - 1, Assigned supply q l.i pair)
    (hindex : l.i = q.length) :
    Keeps (host.systemIn supply) (usage own bounded q) (finishQueue l) m fun _ _ => True := by
  unfold finishQueue
  have hholds : own → ∀ pair < q.length - 1, m.Holds l.pipes pair :=
    fun hown pair hpair => hused.pipes pair hpair (hmade hown pair hpair)
  refine (closepipes_keeps _ (by rw [hused.count]) hholds).bind fun _ m₁ ⟨hm₁, _⟩ => ?_
  refine (restore_keeps l).bind fun _ m₂ ⟨hm₂, _⟩ => ?_
  have hpid : l.pid = -1 ∨ m₂.Forked l.pid :=
    hused.pid.imp_right fun hforked => hforked.mono (hm₁.trans hm₂)
  refine (waitForLast_keeps hpid).bind fun _ m₃ ⟨hm₃, _⟩ => ?_
  refine (freeLast_keeps l).bind fun _ m₄ ⟨hm₄, _⟩ => ?_
  have hsub := ((hm₁.trans hm₂).trans hm₃).trans hm₄
  refine (reapLaunched_keeps _ fun hown i hi => ?_).bind fun _ m₅ _ => ⟨trivial, fun _ => trivial⟩
  rw [hused.count] at hi
  obtain ⟨hpiped, hforks⟩ := hall hown i hi
  obtain ⟨hstored, hforked⟩ := hused.launched i (by omega) hpiped
  exact ⟨hsub hstored, (hforked hforks).mono hsub⟩

/-- The pipes are there when a piped command gets its child. -/
theorem startPipeline_keeps (hused : Used host supply q l m) :
    KeepsUsage host supply own bounded q (startPipeline l) m fun l' m' =>
      l' = { l with pipes := l'.pipes } ∧ ∀ pair < q.length - 1,
        Assigned supply q (l.i + 1) pair → m'.Holds l'.pipes pair := by
  unfold startPipeline
  rw [hused.after]
  split
  · next hafter =>
    refine ⟨subset_rfl, rfl, fun pair hpair hmade => hused.pipes pair hpair ?_⟩
    obtain ⟨start, hlt, hpiped, hfirst, hsupply⟩ := hmade
    have hne : start ≠ l.i := by
      rintro rfl
      rw [hafter] at hfirst
      cases hfirst
    exact ⟨start, by omega, hpiped, hfirst, hsupply⟩
  · have hcount : l.nCommands - 1 = q.length - 1 := by rw [hused.count]
    rw [hcount]
    refine (makePipes_keeps l _ le_rfl).mono fun l' m' ⟨hm', hframe, hholds⟩ => ?_
    refine ⟨hm', hframe, fun pair hpair hmade => hholds pair ?_⟩
    obtain ⟨start, hlt, hpiped, hfirst, hsupply⟩ := hmade
    rcases Nat.lt_succ_iff_lt_or_eq.mp hlt with hlt | rfl
    · exact .inl (hused.pipes pair hpair ⟨start, hlt, hpiped, hfirst, hsupply⟩)
    · exact .inr ⟨hpair, hsupply⟩

theorem Clean.mono (h : Clean l m) (hm : m ⊆ m') : Clean l m' :=
  ⟨h.fdIn.mono hm, h.fdOut.mono hm, h.pid.imp_right fun hforked => hforked.mono hm⟩

/-- What is known after the redirections of a command. -/
theorem Used.prepared (hused : Used host supply q l m) (hm : m ⊆ m') (hclean : Clean l' m')
    (hframe : l' = { l with fdIn := l'.fdIn, fdOut := l'.fdOut }) : Used host supply q l' m' := by
  refine ⟨hclean, ?_, ?_, ?_, ?_, ?_⟩
  · rw [← hused.count, hframe]
  · have hi : l'.i = l.i := by rw [hframe]
    rw [hi]
    exact hused.index
  · have hafter : l'.afterPipe = l.afterPipe := by
      rw [hframe]
      rfl
    rw [hafter, hused.after, hframe]
  · rw [hframe]
    exact fun pair hpair hmade => (hused.pipes pair hpair hmade).mono hm
  · rw [hframe]
    intro k hk hpiped
    obtain ⟨hstored, hforked⟩ := hused.launched k hk hpiped
    exact ⟨hm hstored, fun hforks => (hforked hforks).mono hm⟩

/-- What is known when the turn of the next command comes. -/
theorem Used.next {pid : Int} {pipes launched : Int → Int} (hused : Used host supply q l m)
    (hclean : Clean l m') (hcmd : q[l.i]? = some cmd) (hpid : pid = -1 ∨ m'.Forked pid)
    (hpipes : ∀ pair < q.length - 1, Assigned supply q (l.i + 1) pair → m'.Holds pipes pair)
    (hlaunched : ∀ k ≤ l.i, pipedAt q k = true →
      m'.Stored .launched k ∧ ((host.forks k).isSome → m'.Forked (launched k))) :
    Used host supply q
      (Locals.next { l with pid := pid, pipes := pipes, launched := launched } cmd) m' := by
  refine ⟨⟨hclean.fdIn, hclean.fdOut, hpid⟩, hused.count, ?_, ?_, ?_, ?_⟩
  · have := lt_of_turn hcmd
    change l.i + 1 ≤ _
    omega
  · change _ = afterPipeAt q (l.i + 1)
    rw [afterPipeAt_succ hcmd]
    rfl
  · exact hpipes
  · intro k hk
    exact hlaunched k (Nat.lt_succ_iff.mp hk)

/-- The pid that `fork` returned. -/
theorem forked_pid (host : Host) (i : Nat) :
    ((host.forks i).isSome → 0 < host.pid i) ∧ (host.pid i = -1 ∨ 0 < host.pid i) := by
  rw [Host.pid]
  cases host.forks i with
  | none => exact ⟨fun h => (Bool.false_ne_true h).elim, .inl rfl⟩
  | some pid =>
    have hpos : 0 < (pid : Int) := by exact_mod_cast pid.pos
    exact ⟨fun _ => hpos, .inr hpos⟩

/-- The shell notes the pid of a piped command. -/
theorem notePid_keeps (pid : Int) :
    KeepsUsage host supply own bounded q (.call (.store .launched l.i) fun _ =>
      .call (.setFgPid pid) fun _ => freeLast l) m fun _ m' => m'.Stored .launched l.i := by
  refine ⟨trivial, fun _ => ⟨trivial, fun _ => ?_⟩⟩
  refine (freeLast_keeps l).mono fun _ m' ⟨hm', _⟩ => ?_
  have hlate := (Set.subset_insert _ _).trans hm'
  exact ⟨(Set.subset_insert _ _).trans hlate, hlate (Set.mem_insert _ _)⟩

/-- What a program does when `fork` has returned. -/
theorem fork_keeps {child : Job α} {parent : Int → Job α} {i : Nat} {Q : α → History → Prop}
    (hchild : (host.forks i).isSome → ∀ m', m ⊆ m' →
      Keeps (host.systemIn supply) ((usage own bounded q).child m') child m' fun _ _ => False)
    (hparent : Keeps (host.systemIn supply) (usage own bounded q) (parent (host.pid i))
      (insert (Event.fork i (host.pid i)) m) Q) :
    Keeps (host.systemIn supply) (usage own bounded q)
      (.fork i fun pid => if pid = 0 then child else parent pid) m Q := by
  refine .fork (fun hforks => ?_) fun pid hforks => ?_
  · change host.forks i = none at hforks
    have hpid : host.pid i = -1 := by rw [Host.pid, hforks]
    rw [hpid] at hparent
    exact ⟨trivial, hparent⟩
  · change host.forks i = some pid at hforks
    have hpid : host.pid i = pid := by rw [Host.pid, hforks]
    rw [hpid] at hparent
    have hpos : (pid : Int) ≠ 0 := by
      have := pid.pos
      omega
    refine ⟨trivial, ?_, ?_⟩
    · exact hchild (by rw [hforks]; rfl) _ (Set.subset_insert _ _)
    · rw [if_neg hpos]
      exact hparent

/-- What a finished loop has assigned, when its first command is piped and gets a child. -/
theorem assigned_finished (hall : AllPiped host q) (hmade : PipesMade host supply q)
    (hcont : Continues host q q.length) {pair : Nat} (hpair : pair < q.length - 1) :
    Assigned supply q q.length pair := by
  obtain ⟨hpiped, hforks⟩ := hall hcont 0 (by omega)
  have hfirst : Continues host q (0 + 1) := hcont.mono (by omega)
  exact (hmade 0 (by omega) hfirst hpiped hforks pair hpair).mono (by omega)

/-- The turn of a piped command: its child finds the pipes it reads, and its pid is noted. -/
theorem pipedTurn_keeps {rest : Locals → Job α} {Q : α → History → Prop}
    (hmade : own → PipesMade host supply q)
    (hbounded : bounded → Ended q ∧ ¬ StartsPiped host q) (hused : Used host supply q l m)
    (hcmd : q[l.i]? = some cmd) (hfails : host.failsAt l.i cmd = false)
    (hnext : Continues host q (l.i + 1)) (hpiped : pipedAt q l.i = true)
    (hrest : ∀ l' m', l'.i = l.i + 1 → Used host supply q l' m' →
      Keeps (host.systemIn supply) (usage own bounded q) (rest l') m' Q) :
    Keeps (host.systemIn supply) (usage own bounded q) (startPipeline l >>= fun l =>
      .fork l.i fun pid =>
        if pid = 0 then pipedChild l cmd queue
        else .call (.store .launched l.i) fun _ => .call (.setFgPid pid) fun _ =>
          freeLast l >>= fun _ => rest (Locals.next
            { l with pid := pid, launched := Function.update l.launched l.i pid } cmd)) m Q := by
  refine (startPipeline_keeps hused).bind fun l₁ m₁ hkept => ?_
  obtain ⟨hm₁, hframe, hholds⟩ := hkept
  generalize l₁.pipes = pipes at hframe hholds
  subst hframe
  refine fork_keeps (fun hforks m' hm' => ?_) ?_
  · have hlt := lt_of_turn hcmd
    refine pipedChild_keeps hused.count (fun j h hj => ?_) (fun h => ⟨?_, hlt⟩) ?_
    · obtain ⟨pair, hpair, hj⟩ := exists_pair (q.length - 1) hj.1 (by simpa [Arr.size] using hj.2)
      have hassigned := hmade h l.i hlt hnext hpiped hforks pair hpair
      exact hm' (hholds pair hpair hassigned j hj).1
    · by_contra hzero
      obtain ⟨hended, hstarts⟩ := hbounded h
      have hi : l.i = 0 := by
        change ¬ 1 ≤ l.i at hzero
        omega
      rw [pipedAt_eq hcmd] at hpiped
      rw [hi] at hcmd hfails hforks hpiped
      have hmask : cmd.connectionMask = .pipe := by simpa [afterPipeAt] using hpiped
      exact hstarts ⟨cmd, hcmd, hmask, hfails, hforks⟩
    · exact fun h hmask => (hbounded h).1 _ cmd hcmd hmask
  · refine (notePid_keeps (host.pid l.i)).bind fun _ m₂ hkept => ?_
    obtain ⟨hm₂, hstored⟩ := hkept
    have hfork := hm₂ (Set.mem_insert (Event.fork l.i (host.pid l.i)) m₁)
    have hsub := (Set.subset_insert (Event.fork l.i (host.pid l.i)) m₁).trans hm₂
    obtain ⟨hforks, hpid⟩ := forked_pid host l.i
    refine hrest _ _ rfl (hused.next (hused.mono (hm₁.trans hsub)) hcmd
      (hpid.imp_right fun hpos => ⟨hpos, _, hfork⟩)
      (fun pair hpair h => (hholds pair hpair h).mono hsub) ?_)
    intro k hk hpipedAt
    rcases Nat.lt_or_eq_of_le hk with hlt | rfl
    · obtain ⟨hold, hforked⟩ := hused.launched k hlt hpipedAt
      have hne : (k : Int) ≠ l.i := by omega
      rw [Function.update_of_ne hne]
      exact ⟨hsub (hm₁ hold), fun h => (hforked h).mono (hm₁.trans hsub)⟩
    · rw [Function.update_self]
      exact ⟨hstored, fun h => ⟨hforks h, _, hfork⟩⟩

/-- The turn of a command on its own, in a child. -/
theorem singleTurn_keeps {rest : Locals → Job α} {Q : α → History → Prop}
    (hused : Used host supply q l m) (hcmd : q[l.i]? = some cmd) (hsingle : pipedAt q l.i = false)
    (hrest : ∀ l' m', l'.i = l.i + 1 → Used host supply q l' m' →
      Keeps (host.systemIn supply) (usage own bounded q) (rest l') m' Q) :
    Keeps (host.systemIn supply) (usage own bounded q) (.fork l.i fun pid =>
      if pid = 0 then singleChild l cmd
      else restore l >>= fun _ => freeLast l >>= fun _ =>
        rest (Locals.next { l with pid := pid } cmd)) m Q := by
  refine fork_keeps (fun _ _ _ => singleChild_keeps l cmd) ?_
  refine (restore_keeps l).bind fun _ m₁ hkept => ?_
  obtain ⟨hm₁, _⟩ := hkept
  refine (freeLast_keeps l).bind fun _ m₂ hkept => ?_
  obtain ⟨hm₂, _⟩ := hkept
  have hfork := hm₂ (hm₁ (Set.mem_insert (Event.fork l.i (host.pid l.i)) m))
  have hsub := ((Set.subset_insert (Event.fork l.i (host.pid l.i)) m).trans hm₁).trans hm₂
  obtain ⟨_, hpid⟩ := forked_pid host l.i
  have hearlier : ∀ k ≤ l.i, pipedAt q k = true → k < l.i := by
    intro k hk hpipedAt
    rcases Nat.lt_or_eq_of_le hk with hlt | rfl
    · exact hlt
    · rw [hsingle] at hpipedAt
      cases hpipedAt
  refine hrest _ _ rfl (hused.next (hused.mono hsub) hcmd
    (hpid.imp_right fun hpos => ⟨hpos, _, hfork⟩) ?_ ?_)
  · rintro pair hpair ⟨start, hlt, hstart, hrest⟩
    have hassigned := hearlier start (Nat.lt_succ_iff.mp hlt) hstart
    exact (hused.pipes pair hpair ⟨start, hassigned, hstart, hrest⟩).mono hsub
  · intro k hk hpipedAt
    obtain ⟨hold, hforked⟩ := hused.launched k (hearlier k hk hpipedAt) hpipedAt
    exact ⟨hsub hold, fun h => (hforked h).mono hsub⟩

theorem commandLoop_keeps (hown : own → AllPiped host q) (hmade : own → PipesMade host supply q)
    (hbounded : bounded → Ended q ∧ ¬ StartsPiped host q) (hqueue : queue = q.drop l.i)
    (hused : Used host supply q l m) (hcont : Continues host q l.i) :
    Keeps (host.systemIn supply) (usage own bounded q) (commandLoop l queue) m fun _ _ => True := by
  induction queue generalizing l m with
  | nil =>
    have hlen := List.drop_eq_nil_iff.mp hqueue.symm
    have hindex : l.i = q.length := le_antisymm hused.index hlen
    rw [commandLoop]
    refine finishQueue_keeps hused (fun h => hown h (hindex ▸ hcont)) ?_ hindex
    intro h pair hpair
    rw [hindex] at hcont ⊢
    exact assigned_finished (hown h) (hmade h) hcont hpair
  | cons cmd queue ih =>
    have hcmd : q[l.i]? = some cmd := by
      rw [← List.head?_drop, ← hqueue]
      rfl
    have hrest : queue = q.drop (l.i + 1) := by
      rw [← List.tail_drop, ← hqueue]
      rfl
    rw [commandLoop]
    refine (prepare_keeps hused.toClean).bind fun r m₁ hkept => ?_
    obtain ⟨hm₁, hfails, hl⟩ := hkept
    cases r with
    | none => trivial
    | some l₁ =>
      obtain ⟨hclean, hframe⟩ := hl l₁ rfl
      have hused₁ := hused.prepared hm₁ hclean hframe
      have hi : l₁.i = l.i := by rw [hframe]
      rw [← hi] at hcmd hrest hfails hcont
      clear hframe hl hused hi hqueue hm₁
      have hpiped : (l₁.afterPipe = true ∨ cmd.connectionMask = .pipe) ↔
          pipedAt q l₁.i = true := by
        rw [pipedAt_eq hcmd, hused₁.after]
        simp
      have hloop : Continues host q (l₁.i + 1) → ∀ l' m', l'.i = l₁.i + 1 →
          Used host supply q l' m' → Keeps (host.systemIn supply) (usage own bounded q)
            (commandLoop l' queue) m' fun _ _ => True :=
        fun hnext l' m' hi hused => ih (hi ▸ hrest) hused (hi ▸ hnext)
      dsimp only
      split
      · next hbranch =>
        have hnext : Continues host q (l₁.i + 1) :=
          continues_succ hcont hcmd hfails fun hsingle => by
            rw [hpiped.mp hbranch] at hsingle
            cases hsingle
        exact pipedTurn_keeps hmade hbounded hused₁ hcmd hfails hnext (hpiped.mp hbranch)
          (hloop hnext)
      · next hbranch =>
        have hsingle : pipedAt q l₁.i = false := by
          rw [hpiped, Bool.not_eq_true] at hbranch
          exact hbranch
        cases hshell : runsInShell cmd queue with
        | none => trivial
        | some b =>
          cases b with
          | true => exact ⟨trivial, fun _ => ⟨trivial, fun _ => trivial⟩⟩
          | false =>
            have hnext : Continues host q (l₁.i + 1) :=
              continues_succ hcont hcmd hfails fun _ => hrest ▸ hshell
            exact singleTurn_keeps hused₁ hcmd hsingle (hloop hnext)

theorem execute_keeps (stack : Stack) (hown : own → AllPiped host q)
    (hmade : own → PipesMade host supply q)
    (hbounded : bounded → Ended q ∧ ¬ StartsPiped host q) (m : History) :
    Keeps (host.systemIn supply) (usage own bounded q) (executeCommandsInQueue stack q) m
      fun _ _ => True := by
  unfold executeCommandsInQueue
  split
  · trivial
  · refine fun stdinCopy => ⟨trivial, fun stdoutCopy => ⟨trivial, ?_⟩⟩
    refine commandLoop_keeps hown hmade hbounded rfl ?_ ?_
    · refine ⟨⟨.inl rfl, .inl rfl, .inl rfl⟩, rfl, Nat.zero_le _, rfl, ?_, ?_⟩
      · exact fun _ _ ⟨start, hlt, _⟩ => absurd hlt (Nat.not_lt_zero start)
      · exact fun k hk => absurd hk (Nat.not_lt_zero k)
    · exact ⟨fun i _ hi => absurd hi (Nat.not_lt_zero i),
        fun i _ hi => absurd hi (Nat.not_lt_zero i)⟩

end Redshell
