import Redshell.Interleaving

/-! Rules for what holds at every step of a program, whatever happens around it. -/
namespace Redshell

section

variable {ν κ σ α β : Type} (sys : System ν κ σ)
  (ok : Option (Request κ) → Moment ν κ σ → Act → Prop) (G : Request κ → Moment ν κ σ → Prop)

/-- On every allowed way from here, `G` holds of each request, and `B` where the program has a
value. -/
def Safe (B : α → Moment ν κ σ → Prop) (c : Config ν κ σ α) : Prop :=
  ∀ c', c.Reaches sys ok c' → (∀ r, c'.control.request = some r → G r c'.moment) ∧
    ∀ a, c'.control = .running (.ret a) → B a c'.moment

def Ensures (A : Moment ν κ σ → Prop) (prog : Prog ν κ α) (B : α → Moment ν κ σ → Prop) : Prop :=
  ∀ m, A m → Safe sys ok G B ⟨.running prog, m⟩

end

/-- What happens around a program does not change this. -/
def Stable {ν κ σ : Type} (A : Moment ν κ σ → Prop) : Prop :=
  ∀ m m' d, m.disturb d = some m' → A m → A m'

/-- It is about the children, and their growing older does not change it. -/
def Lasting {ν κ σ : Type} (A : Moment ν κ σ → Prop) : Prop :=
  ∀ m m' : Moment ν κ σ, m.children.Evolves m'.children → A m → A m'

/-- Not a step of the world around. -/
def Act.Own : Act → Prop
  | disturb _ => False
  | _ => True

variable {ν κ σ α β : Type} {sys : System ν κ σ}
  {ok : Option (Request κ) → Moment ν κ σ → Act → Prop} {G : Request κ → Moment ν κ σ → Prop}
  {A A' : Moment ν κ σ → Prop} {B B' : α → Moment ν κ σ → Prop} {C : β → Moment ν κ σ → Prop}
  {prog after : Prog ν κ α} {k : α → Prog ν κ β} {c c' : Config ν κ σ α} {control : Control ν κ α}
  {m m' : Moment ν κ σ} {pid : Int} {V : α → Prop} {W : β → Prop}

theorem Lasting.stable (h : Lasting A) : Stable A := fun m m' _ hdisturb hm =>
  h m m' (Moment.disturb_evolves hdisturb) hm

namespace Safe

/-- An invariant of the steps that says enough where it matters. -/
theorem of_invariant (I : Config ν κ σ α → Prop) (hI : I c)
    (hstep : ∀ c c', I c → c.Moves sys ok c' → I c')
    (hG : ∀ c r, I c → c.control.request = some r → G r c.moment)
    (hB : ∀ c a, I c → c.control = .running (.ret a) → B a c.moment) : Safe sys ok G B c := by
  intro c' hreaches
  have hc' : I c' := by
    induction hreaches with
    | refl => exact hI
    | tail _ hmove ih => exact hstep _ _ ih hmove
  exact ⟨fun r hr => hG c' r hc' hr, fun a ha => hB c' a hc' ha⟩

theorem next (h : Safe sys ok G B c) (hmove : c.Moves sys ok c') : Safe sys ok G B c' :=
  fun c'' hreaches => h c'' (.head hmove hreaches)

theorem request (h : Safe sys ok G B c) {r : Request κ} (hr : c.control.request = some r) :
    G r c.moment := (h c .refl).1 r hr

theorem value (h : Safe sys ok G B c) {a : α} (ha : c.control = .running (.ret a)) :
    B a c.moment := (h c .refl).2 a ha

theorem mono (h : Safe sys ok G B c) (hB : ∀ a m, B a m → B' a m) : Safe sys ok G B' c :=
  fun c' hreaches => ⟨(h c' hreaches).1, fun a ha => hB a _ ((h c' hreaches).2 a ha)⟩

/-- Places of a program that are left only for safe ones. -/
theorem of_loop (I : Config ν κ σ α → Prop) (hI : I c)
    (hstable : ∀ control m d m', I ⟨control, m⟩ → m.disturb d = some m' → I ⟨control, m'⟩)
    (hstep : ∀ c act c', I c → act.Own → ok c.control.request c.moment act →
      c.step sys act = some c' → I c' ∨ Safe sys ok G B c')
    (hG : ∀ c r, I c → c.control.request = some r → G r c.moment)
    (hB : ∀ c a, I c → c.control = .running (.ret a) → B a c.moment) : Safe sys ok G B c := by
  apply of_invariant (fun c => I c ∨ Safe sys ok G B c) (.inl hI)
  · rintro ⟨control, m⟩ c' (hc | hc) ⟨act, hok, hact⟩
    · cases act with
      | disturb d =>
        obtain ⟨m', hdisturb, rfl⟩ := Option.map_eq_some_iff.mp hact
        exact .inl (hstable control m d m' hc hdisturb)
      | call => exact hstep _ .call _ hc trivial hok hact
      | wait how => exact hstep _ (.wait how) _ hc trivial hok hact
    · exact .inr (hc.next ⟨act, hok, hact⟩)
  · rintro c r (hc | hc) hr
    · exact hG c r hc hr
    · exact hc.request hr
  · rintro c a (hc | hc) ha
    · exact hB c a hc ha
    · exact hc.value ha

/-- One place of a program, with what holds there. -/
theorem of_place (hA : Stable A) (hm : A m) (hunfinished : control.Unfinished)
    (hG : ∀ r m, A m → control.request = some r → G r m)
    (hstep : ∀ m act c', A m → act.Own → ok control.request m act →
      (⟨control, m⟩ : Config ν κ σ α).step sys act = some c' → Safe sys ok G B c') :
    Safe sys ok G B ⟨control, m⟩ := by
  apply of_loop (fun c => c.control = control ∧ A c.moment) ⟨rfl, hm⟩
  · rintro _ m d m' ⟨rfl, hm⟩ hdisturb
    exact ⟨rfl, hA m m' d hdisturb hm⟩
  · rintro ⟨_, m⟩ act c' ⟨rfl, hm⟩ hown hok hact
    exact .inr (hstep m act c' hm hown hok hact)
  · rintro ⟨_, m⟩ r ⟨rfl, hm⟩ hr
    exact hG r m hm hr
  · rintro ⟨_, m⟩ a ⟨rfl, _⟩ ha
    exact absurd ha (hunfinished a)

end Safe

namespace Ensures

theorem consequence (h : Ensures sys ok G A prog B) (hA : ∀ m, A' m → A m)
    (hB : ∀ a m, B a m → B' a m) : Ensures sys ok G A' prog B' :=
  fun m hm => (h m (hA m hm)).mono hB

theorem ret {a : α} (hstable : Stable (B a)) (hA : ∀ m, A m → B a m) :
    Ensures sys ok G A (.ret a) B := by
  intro m hm
  apply Safe.of_loop (fun c => c.control = .running (.ret a) ∧ B a c.moment) ⟨rfl, hA m hm⟩
  · rintro _ m d m' ⟨rfl, hm⟩ hdisturb
    exact ⟨rfl, hstable m m' d hdisturb hm⟩
  · rintro ⟨_, m⟩ act c' ⟨rfl, _⟩ hown _ hact
    cases act with
    | disturb d => exact absurd hown id
    | call => cases hact
    | wait how => cases hact
  · rintro ⟨_, m⟩ r ⟨rfl, _⟩ hr
    cases hr
  · rintro ⟨_, m⟩ a' ⟨rfl, hm⟩ ha
    cases ha
    exact hm

/-- The parts of a program one after another. -/
theorem bind (h : Ensures sys ok G A prog B) (hk : ∀ a, Ensures sys ok G (B a) (k a) C) :
    Ensures sys ok G A (prog >>= k) C := by
  have hsplit : ∀ c : Config ν κ σ α, Safe sys ok G B c →
      c.control.Unfinished ∨ Safe sys ok G C (c.bind k) := by
    rintro ⟨control, m⟩ hsafe
    by_cases hunfinished : control.Unfinished
    · exact .inl hunfinished
    · obtain ⟨a, ha⟩ := not_forall.mp hunfinished
      obtain rfl := not_not.mp ha
      exact .inr (hk a m (hsafe.value rfl))
  intro m hm
  apply Safe.of_invariant (fun c => (∃ c₀, c = c₀.bind k ∧ Safe sys ok G B c₀ ∧
    c₀.control.Unfinished) ∨ Safe sys ok G C c)
  · rcases hsplit _ (h m hm) with hunfinished | hsafe
    · exact .inl ⟨_, rfl, h m hm, hunfinished⟩
    · exact .inr hsafe
  · rintro c c' (⟨c₀, rfl, hsafe, hunfinished⟩ | hsafe) ⟨act, hok, hact⟩
    · rw [Config.step_bind hunfinished] at hact
      obtain ⟨c₁, hstep, rfl⟩ := Option.map_eq_some_iff.mp hact
      have hrequest : (c₀.bind k).control.request = c₀.control.request :=
        Control.request_bind hunfinished k
      rw [hrequest] at hok
      have hnext := hsafe.next ⟨act, hok, hstep⟩
      rcases hsplit c₁ hnext with hunfinished' | hsafe'
      · exact .inl ⟨c₁, rfl, hnext, hunfinished'⟩
      · exact .inr hsafe'
    · exact .inr (hsafe.next ⟨act, hok, hact⟩)
  · rintro c r (⟨c₀, rfl, hsafe, hunfinished⟩ | hsafe) hr
    · exact hsafe.request ((Control.request_bind hunfinished k).symm.trans hr)
    · exact hsafe.request hr
  · rintro c b (⟨⟨control, m⟩, rfl, _, hunfinished⟩ | hsafe) hb
    · exfalso
      cases control with
      | running prog =>
        cases prog with
        | ret a => exact hunfinished a rfl
        | _ => cases hb
      | testing pid next => cases hb
      | stopped => cases hb
    · exact hsafe.value hb

/-- What is known of the program apart from the moment. -/
theorem of_fact {fact : Prop} (h : fact → Ensures sys ok G A prog B) :
    Ensures sys ok G (fun m => fact ∧ A m) prog B := fun m hm => h hm.1 m hm.2

end Ensures

theorem Config.step_stopped {act : Act} (hown : act.Own) :
    (⟨.stopped, m⟩ : Config ν κ σ α).step sys act = none := by
  cases act with
  | disturb d => exact absurd hown id
  | call => rfl
  | wait how => rfl

theorem Safe.of_stopped (m : Moment ν κ σ) : Safe sys ok G B ⟨.stopped, m⟩ := by
  apply Safe.of_place (A := fun _ => True) (fun _ _ _ _ _ => trivial) trivial
  · rintro a ⟨⟩
  · rintro r m - ⟨⟩
  · rintro m act c' - hown - hact
    cases (Config.step_stopped hown).symm.trans hact

/-! One rule for each kind of call. -/

/-- The program makes no children, waits for none, calls only these routines, and gives only these
values. -/
def Prog.Yields (quiet : κ → Prop) (V : α → Prop) : Prog ν κ α → Prop
  | ret a => V a
  | crash => True
  | exit _ => True
  | dup _ next => ∀ r, (next r).Yields quiet V
  | dup2 _ _ next => next.Yields quiet V
  | close _ next => next.Yields quiet V
  | openFile _ next => ∀ r, (next r).Yields quiet V
  | pipe _ _ next => ∀ r w, (next r w).Yields quiet V
  | fork _ _ => False
  | waitpid _ _ => False
  | reap _ _ => False
  | call routine next => quiet routine ∧ ∀ status, (next status).Yields quiet V

section

variable {quiet : κ → Prop} {routine : κ} {name : Nat}

theorem Prog.Yields.bind (h : prog.Yields quiet V) (hk : ∀ a, V a → (k a).Yields quiet W) :
    (prog >>= k).Yields quiet W := by
  change (prog.bind k).Yields quiet W
  induction prog with
  | ret a => exact hk a h
  | crash => trivial
  | exit status => trivial
  | dup fd next ih => exact fun r => ih r (h r)
  | dup2 old new next ih => exact ih h
  | close fd next ih => exact ih h
  | openFile name next ih => exact fun r => ih r (h r)
  | pipe start pair next ih => exact fun r w => ih r w (h r w)
  | fork name next => exact absurd h id
  | waitpid pid next => exact absurd h id
  | reap pid next => exact absurd h id
  | call routine next ih => exact ⟨h.1, fun status => ih status (h.2 status)⟩

theorem Prog.Yields.wait (h : prog.Yields quiet V) (how : Wait) :
    (⟨.running prog, m⟩ : Config ν κ σ α).wait how = none := by
  cases prog with
  | waitpid pid next => exact absurd h id
  | reap pid next => exact absurd h id
  | _ => rfl

theorem Prog.Yields.advance {w : World ν κ σ} {done : Control ν κ α × World ν κ σ}
    (h : prog.Yields quiet V) (hdone : prog.advance sys w = some done) :
    done.1 = .stopped ∨ ∃ prog', done.1 = .running prog' ∧ prog'.Yields quiet V := by
  cases prog with
  | call routine next =>
    rw [Prog.advance] at hdone
    cases hperform : sys.perform routine w.memory with
    | returned status memory =>
      rw [hperform] at hdone
      cases hdone
      exact .inr ⟨_, rfl, h.2 status⟩
    | _ =>
      rw [hperform] at hdone
      cases hdone
      exact .inl rfl
  | ret a => cases hdone
  | fork name next => exact absurd h id
  | waitpid pid next => exact absurd h id
  | reap pid next => exact absurd h id
  | crash =>
    cases hdone
    exact .inl rfl
  | exit status =>
    cases hdone
    exact .inl rfl
  | dup fd next =>
    cases hdone
    exact .inr ⟨_, rfl, h _⟩
  | dup2 old new next =>
    cases hdone
    exact .inr ⟨_, rfl, h⟩
  | close fd next =>
    cases hdone
    exact .inr ⟨_, rfl, h⟩
  | openFile name next =>
    cases hdone
    exact .inr ⟨_, rfl, h _⟩
  | pipe start pair next =>
    cases hdone
    exact .inr ⟨_, rfl, h _ _⟩

namespace Ensures

/-- A part of a program that has nothing to do with the children. -/
theorem of_yields (h : prog.Yields quiet V) (hA : Lasting A)
    (hquiet : ∀ r, quiet r → ∀ m, G (.call r) m) :
    Ensures sys ok G A prog (fun a m => V a ∧ A m) := by
  intro m hm
  apply Safe.of_loop (fun c => A c.moment ∧
    (c.control = .stopped ∨ ∃ prog, c.control = .running prog ∧ prog.Yields quiet V))
    ⟨hm, .inr ⟨prog, rfl, h⟩⟩
  · rintro control m d m' ⟨hm, hcontrol⟩ hdisturb
    exact ⟨hA.stable m m' d hdisturb hm, hcontrol⟩
  · rintro ⟨_, m⟩ act c' ⟨hm, rfl | ⟨prog, rfl, hyields⟩⟩ hown - hact
    · cases (Config.step_stopped hown).symm.trans hact
    · cases act with
      | disturb d => exact absurd hown id
      | wait how => cases (hyields.wait how).symm.trans hact
      | call =>
        have hfork : ∀ name next, prog ≠ .fork name next := by
          rintro name next rfl
          exact hyields
        obtain ⟨done, hdone, rfl⟩ :=
          Option.map_eq_some_iff.mp ((Config.call_running hfork m).symm.trans hact)
        exact .inl ⟨hA m _ (.refl _) hm, hyields.advance hdone⟩
  · rintro ⟨_, m⟩ r ⟨_, rfl | ⟨prog, rfl, hyields⟩⟩ hr
    · cases hr
    · cases prog with
      | fork name next => exact absurd hyields id
      | waitpid pid next => exact absurd hyields id
      | call routine next =>
        cases hr
        exact hquiet routine hyields.1 m
      | _ => cases hr
  · rintro ⟨_, m⟩ a ⟨hm, rfl | ⟨prog, rfl, hyields⟩⟩ ha
    · cases ha
    · cases ha
      exact ⟨hyields, hm⟩

/-- What comes after such a part. -/
theorem bind_yields (h : prog.Yields quiet V) (hA : Lasting A)
    (hquiet : ∀ r, quiet r → ∀ m, G (.call r) m)
    (hk : ∀ a, V a → Ensures sys ok G A (k a) C) : Ensures sys ok G A (prog >>= k) C :=
  (of_yields h hA hquiet).bind fun a => .of_fact (hk a)

/-- A routine that is called under conditions. -/
theorem call {next : Int → Prog ν κ α} (hA : Lasting A) (hG : ∀ m, A m → G (.call routine) m)
    (hnext : ∀ status, Ensures sys ok G A (next status) B) :
    Ensures sys ok G A (.call routine next) B := by
  intro m hm
  apply Safe.of_place hA.stable hm
  · rintro a ⟨⟩
  · rintro r m hm ⟨⟩
    exact hG m hm
  · rintro m act c' hm hown - hact
    cases act with
    | disturb d => exact absurd hown id
    | wait how => cases hact
    | call =>
      obtain ⟨done, hdone, rfl⟩ := Option.map_eq_some_iff.mp hact
      rw [Prog.advance] at hdone
      cases hperform : sys.perform routine m.world.memory with
      | returned status memory =>
        rw [hperform] at hdone
        cases hdone
        exact hnext status _ (hA m _ (.refl _) hm)
      | _ =>
        rw [hperform] at hdone
        cases hdone
        exact .of_stopped _

theorem fork {next : Int → Prog ν κ α} {A' : Int → Moment ν κ σ → Prop} (hA : Stable A)
    (hG : ∀ m, A m → G (.fork name) m)
    (hmade : ∀ m pid m', A m → m.fork sys name = some (pid, m') → A' pid m')
    (hnext : ∀ pid, Ensures sys ok G (A' pid) (next pid) B) :
    Ensures sys ok G A (.fork name next) B := by
  intro m hm
  apply Safe.of_place hA hm
  · rintro a ⟨⟩
  · rintro r m hm ⟨⟩
    exact hG m hm
  · rintro m act c' hm hown - hact
    cases act with
    | disturb d => exact absurd hown id
    | wait how => cases hact
    | call =>
      obtain ⟨⟨pid, m'⟩, hfork, rfl⟩ := Option.map_eq_some_iff.mp hact
      exact hnext pid m' (hmade m pid m' hm hfork)

theorem waitpid (hA : Stable A) (hA' : Lasting A') (hG : ∀ m, A m → G (.waitpid pid) m)
    (hwaited : ∀ m how found m', A m → ok (some (.waitpid pid)) m (.wait how) →
      m.waitpid pid how = some (found, m') → A' m')
    (hnext : Ensures sys ok G A' after B) : Ensures sys ok G A (.waitpid pid after) B := by
  intro m hm
  apply Safe.of_place hA hm
  · rintro a ⟨⟩
  · rintro r m hm ⟨⟩
    exact hG m hm
  · rintro m act c' hm hown hok hact
    cases act with
    | disturb d => exact absurd hown id
    | call => cases hact
    | wait how =>
      obtain ⟨⟨found, m'⟩, hwaitpid, rfl⟩ := Option.map_eq_some_iff.mp hact
      exact hnext _ (hA' m' _ (.refl _) (hwaited m how found m' hm hok hwaitpid))

/-- The loop is left only when no child in the group keeps the pid. -/
theorem reap (hA : Lasting A)
    (hnext : Ensures sys ok G (fun m => A m ∧ ∀ p : ℕ+, pid = p → m.children.Gone p) after B) :
    Ensures sys ok G A (.reap pid after) B := by
  intro m hm
  apply Safe.of_loop (fun c => A c.moment ∧ (c.control = .running (.reap pid after) ∨
    c.control = .testing pid after ∧ (c.moment.errno = .echild → c.moment.NoneNear pid)))
    ⟨hm, .inl rfl⟩
  · rintro control m d m' ⟨hm, hcontrol | ⟨hcontrol, herrno⟩⟩ hdisturb
    · exact ⟨hA.stable m m' d hdisturb hm, .inl hcontrol⟩
    · exact ⟨hA.stable m m' d hdisturb hm,
        .inr ⟨hcontrol, Moment.disturb_childless hdisturb herrno⟩⟩
  · rintro ⟨_, m⟩ act c' ⟨hm, rfl | ⟨rfl, herrno⟩⟩ hown - hact
    · cases act with
      | disturb d => exact absurd hown id
      | call => cases hact
      | wait how =>
        obtain ⟨⟨found, m'⟩, hwaitpid, rfl⟩ := Option.map_eq_some_iff.mp hact
        have hm' := hA m m' (Moment.waitpid_evolves hwaitpid) hm
        cases found with
        | true =>
          have hgone : ∀ p : ℕ+, pid = p → m'.children.Gone p := by
            rintro p rfl
            exact (Moment.waitpid_found_free hwaitpid).gone
          exact .inr (hnext _ ⟨hA m' _ (.refl _) hm', hgone⟩)
        | false => exact .inl ⟨hm', .inr ⟨rfl, Moment.waitpid_failed hwaitpid⟩⟩
    · cases act with
      | disturb d => exact absurd hown id
      | wait how => cases hact
      | call =>
        change (if m.errno = .echild then some _ else some _) = _ at hact
        split at hact
        · next hechild =>
          cases hact
          refine .inr (hnext _ ⟨hA m _ (.refl _) hm, ?_⟩)
          rintro p rfl
          exact (herrno hechild).gone
        · cases hact
          exact .inl ⟨hm, .inl rfl⟩
  · rintro ⟨_, m⟩ r ⟨_, rfl | ⟨rfl, _⟩⟩ hr
    · cases hr
    · cases hr
  · rintro ⟨_, m⟩ a ⟨_, rfl | ⟨rfl, _⟩⟩ ha
    · cases ha
    · cases ha

end Ensures

end

end Redshell
