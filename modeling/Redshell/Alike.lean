import Redshell.MainLoop

/-! Sessions of shells that differ in how their dictionaries are stored, in the descriptors they
find and in what is on the stack. -/
namespace Redshell

/-- Two shells with the same directory, environment and map of aliases. -/
structure Shell.Alike (shell shell' : Shell) : Prop where
  cwd : shell'.cwd = shell.cwd
  env : shell'.env = shell.env
  find : shell'.aliases.find = shell.aliases.find

/-- The table of the dictionary takes `n` more aliases. -/
structure Shell.Roomy (shell : Shell) (n : Nat) : Prop extends shell.Sound where
  primeSized : shell.aliases.table.PrimeSized
  room : hashTableNumEntries shell.aliases.table + n < 500000000

variable {wordexp : Wordexp} {ss ss' : Session} {d d' : Dictionary} {g : Complex} {addr : Nat}
  {mask : Connection} {u : CString} {queue : Queue} {pending : Option Pending} {c : UInt8}
  {first : Bool} {shell shell' : Shell} {host : Host} {cmd : Command} {n : Nat}
  {readline : Readline} {call call' : Call}

/-! What a line means depends on the map alone. -/

theorem Shell.Roomy.inserts (h : shell.Roomy (n + 1)) (key : CString) :
    (hashTableInsert shell.aliases.table key shell.aliases.fresh).2 = true ∧
      (hashTableInsert shell.aliases.table key shell.aliases.fresh).1.PrimeSized := by
  have hroom := h.room
  have hcount := h.valid.wellFormed.count
  rw [hashTableNumEntries] at hroom
  exact hashTableInsert_primeSized h.primeSized (by omega) (by omega)

/-- Two calls of a builtin that end alike; what they print may be in another order. -/
def Outcome.Alike : Outcome → Outcome → Prop
  | .returned status _ shell, .returned status' _ shell' => status' = status ∧ shell.Alike shell'
  | .exited printed, .exited printed' => printed' = printed
  | .crashed, .crashed => True
  | _, _ => False

theorem Shell.Roomy.weaken (h : shell.Roomy (n + 1)) : shell.Roomy n := by
  have hroom := h.room
  push_cast at hroom
  exact ⟨h.toSound, h.primeSized, by omega⟩

theorem Shell.Roomy.addAlias (h : shell.Roomy (n + 1)) (key value : CString) :
    { shell with aliases := Redshell.addAlias shell.aliases key value }.Roomy n := by
  have hroom := h.room
  have hentries := entries_insert_le (k := key) h.valid.wellFormed shell.aliases.fresh
  refine ⟨⟨addAlias_valid h.valid key value, addAlias_released h.valid h.released⟩,
    (h.inserts key).2, ?_⟩
  rw [hashTableNumEntries] at hroom ⊢
  dsimp only
  rw [addAlias_table]
  push_cast at hroom
  omega

theorem Shell.Roomy.removeAlias (h : shell.Roomy n) (key : CString) :
    { shell with aliases := Redshell.removeAlias shell.aliases key }.Roomy n := by
  have hroom := h.room
  have hentries := entries_remove_le (k := key) h.valid.wellFormed
  refine ⟨⟨removeAlias_valid h.valid key, removeAlias_released h.valid h.released⟩,
    hashTableRemove_primeSized h.primeSized, ?_⟩
  rw [hashTableNumEntries] at hroom ⊢
  dsimp only
  rw [removeAlias_table]
  omega

/-- A line takes the room of one alias at most. -/
theorem Shell.Roomy.carryOut {i : Nat} {afterPipe : Bool} (h : shell.Roomy (n + 1)) (host : Host)
    (q : Queue) : (carryOut host shell i afterPipe q).shell.Roomy n := by
  have hsound : (Redshell.carryOut host shell i afterPipe q).shell.Sound :=
    h.toSound.carryOut host q
  rcases carryOut_shell host shell i afterPipe q with heq | ⟨cmd, -, heq⟩
  · rw [heq]
    exact h.weaken
  · rw [heq] at hsound ⊢
    rcases executeCommand_shell host shell cmd with
      hsame | ⟨_, -, key, value, -, hshell⟩ | ⟨key, hshell⟩
    · exact ⟨hsound, hsame ▸ h.primeSized, hsame ▸ h.weaken.room⟩
    · exact hshell ▸ h.addAlias key value
    · exact hshell ▸ h.weaken.removeAlias key

/-! Line after line. -/

theorem terminal_roomy (hn : n < 500000000) : terminal.memory.shell.Roomy n := by
  refine ⟨⟨Dictionary.empty.valid, Dictionary.empty.released⟩, tracks_empty.primeSized, ?_⟩
  rw [hashTableNumEntries]
  change (0 : Int) + n < _
  omega

end Redshell
