import Redshell.CString

/-! The commands of command.c and the queue of queue.c that holds them. -/
namespace Redshell

/-- The `commandConnection` constants. -/
inductive Connection where
  | none
  | pipe
  | background
  | sequential
  deriving DecidableEq

/-- `command_t`, with the address `malloc` gave it; `argv` stops before its NULL. -/
structure Command where
  addr : Nat
  path : Option CString
  argv : Option (List CString)
  redirectToPath : Option CString
  redirectFromPath : Option CString
  connectionMask : Connection
  deriving DecidableEq

def commandNew (addr : Nat) : Command where
  addr := addr
  path := none
  argv := none
  redirectToPath := none
  redirectFromPath := none
  connectionMask := .none

/-- The commands from the head of the queue to its tail. -/
abbrev Queue := List Command

def queueNew : Queue := []

def queueInsert (queue : Queue) (command : Command) : Queue := queue ++ [command]

/-- The command popped, NULL when there is none, and the queue without it. -/
def queuePop (queue : Queue) : Option Command × Queue := (queue.head?, queue.tail)

end Redshell
