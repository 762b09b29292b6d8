import Redshell.Expansion
import Redshell.ParserTables

/-! The actions of parser.rl and the loop of `parseInput` that runs them. -/
namespace Redshell

/-- What no run may do: use a NULL command, read what was never stored, or leave an array. -/
inductive Fault where
  | nullCommand
  | unassigned
  | outOfBounds
  deriving DecidableEq

/-- A `char` array of `BUFSIZE + 1` bytes and the `int` that counts its text. -/
structure TextBuffer where
  bytes : Nat → Option UInt8
  len : Option Nat

namespace TextBuffer

/-- The memory that `malloc` returns. -/
def unassigned : TextBuffer := ⟨fun _ => none, none⟩

def store (t : TextBuffer) (i : Nat) (c : UInt8) : Except Fault TextBuffer :=
  if i ≤ bufSize then .ok { t with bytes := Function.update t.bytes i (some c) }
  else .error .outOfBounds

def append (t : TextBuffer) (c : UInt8) : Except Fault TextBuffer :=
  match t.len with
  | none => .error .unassigned
  | some n =>
    if n < bufSize then do
      let t ← t.store n c
      let t ← t.store (n + 1) 0
      .ok { t with len := some (n + 1) }
    else .ok t

def reset (t : TextBuffer) : Except Fault TextBuffer := { t with len := some 0 }.store 0 0

/-- The bytes from an index up to the first NUL, at most so many. -/
def readFrom (t : TextBuffer) : Nat → Nat → Except Fault CString
  | 0, _ => .error .outOfBounds
  | n + 1, i =>
    match t.bytes i with
    | none => .error .unassigned
    | some c => if c = 0 then .ok [] else do return c :: (← t.readFrom n (i + 1))

/-- The array as a C string. -/
def text (t : TextBuffer) : Except Fault CString := t.readFrom (bufSize + 1) 0

end TextBuffer

/-- `struct params` -/
structure Params where
  buffer : TextBuffer
  stdin : TextBuffer
  stdout : TextBuffer
  cs : Nat

/-- The local variables of `parseInput` with the session it runs in; `p` is an index. -/
structure Machine where
  p : Nat
  fsm : Params
  queue : Queue
  command : Option Command
  session : Session

namespace Machine

def append (c : UInt8) (m : Machine) : Except Fault Machine := do
  let buffer ← m.fsm.buffer.append c
  return { m with fsm := { m.fsm with buffer := buffer } }

def appendIn (c : UInt8) (m : Machine) : Except Fault Machine := do
  let stdin ← m.fsm.stdin.append c
  return { m with fsm := { m.fsm with stdin := stdin } }

def appendOut (c : UInt8) (m : Machine) : Except Fault Machine := do
  let stdout ← m.fsm.stdout.append c
  return { m with fsm := { m.fsm with stdout := stdout } }

def new (m : Machine) : Except Fault Machine := do
  let buffer ← m.fsm.buffer.reset
  let stdout ← m.fsm.stdout.reset
  let stdin ← m.fsm.stdin.reset
  return { m with
    fsm := { m.fsm with buffer := buffer, stdin := stdin, stdout := stdout }
    command := some (commandNew m.session.created)
    session := { m.session with created := m.session.created + 1 } }

/-- A redirection path: the expanded text of the array, `path` as it was when there is none. -/
def redirectPath (wordexp : Wordexp) (t : TextBuffer) (path : Option CString) (ss : Session) :
    Except Fault (Option CString × Session) :=
  match t.len with
  | none => .error .unassigned
  | some n =>
    if 0 < n then do
      let text ← t.text
      return expand wordexp text ss
    else .ok (path, ss)

/-- The part of `term` after the words were found. -/
def insertCommand (wordexp : Wordexp) (command : Command) (words : List CString) (m : Machine) :
    Except Fault Machine := do
  let command := { command with argv := some words, path := words.head? }
  let stdin ← redirectPath wordexp m.fsm.stdin command.redirectFromPath m.session
  let command := { command with redirectFromPath := stdin.1 }
  let stdout ← redirectPath wordexp m.fsm.stdout command.redirectToPath stdin.2
  let command := { command with redirectToPath := stdout.1 }
  return { m with queue := queueInsert m.queue command, command := none, session := stdout.2 }

/-- The machine afterwards, and whether it leaves the loop. -/
def term (wordexp : Wordexp) (m : Machine) : Except Fault (Machine × Bool) :=
  match m.fsm.buffer.len with
  | none => .error .unassigned
  | some n =>
    if 0 < n then do
      let buffer ← m.fsm.buffer.text
      let tmp := expandAliasIn buffer m.session
      match expandGlob wordexp tmp.1 tmp.2, m.command with
      | (none, ss), _ => return ({ m with session := ss }, true)
      | (some _, _), none => .error .nullCommand
      | (some words, ss), some command => do
        let m ← insertCommand wordexp command words { m with session := ss }
        return (m, false)
    else .ok (m, false)

def setMask (mask : Connection → Connection) (m : Machine) : Except Fault Machine :=
  match m.command with
  | none => .error .nullCommand
  | some command =>
    .ok { m with command := some { command with connectionMask := mask command.connectionMask } }

def pipe : Machine → Except Fault Machine := setMask fun _ => .pipe

def bg : Machine → Except Fault Machine := setMask fun _ => .background

def seq : Machine → Except Fault Machine :=
  setMask fun mask => if mask ≠ .background then .sequential else mask

/-- The `switch` over the codes of actions; only `term` can leave the loop. -/
def action (wordexp : Wordexp) (c : UInt8) (code : Nat) (m : Machine) :
    Except Fault (Machine × Bool) :=
  match code with
  | 0 => (·, false) <$> m.append c
  | 1 => (·, false) <$> m.appendIn c
  | 2 => (·, false) <$> m.appendOut c
  | 3 => (·, false) <$> m.new
  | 4 => m.term wordexp
  | 5 => (·, false) <$> m.pipe
  | 6 => (·, false) <$> m.bg
  | 7 => (·, false) <$> m.seq
  | _ => .ok (m, false)

def runActions (wordexp : Wordexp) (c : UInt8) :
    List Nat → Machine → Except Fault (Machine × Bool)
  | [], m => .ok (m, false)
  | code :: acts, m => do
    let done ← m.action wordexp c code
    if done.2 then .ok done else runActions wordexp c acts done.1

def setCs (m : Machine) (cs : Nat) : Machine := { m with fsm := { m.fsm with cs := cs } }

/-- One turn of the loop on the byte at `p`: the machine, and whether it leaves the loop. -/
def turn (wordexp : Wordexp) (c : UInt8) (m : Machine) : Except Fault (Machine × Bool) := do
  let next := parserNext m.fsm.cs c
  let done ← runActions wordexp c next.2 (m.setCs next.1)
  if done.2 then return ({ done.1 with p := done.1.p + 1 }, true)
  else if done.1.fsm.cs = parserError then return (done.1, true)
  else return ({ done.1 with p := done.1.p + 1 }, false)

/-- The loop over the bytes from `p` on. -/
def exec (wordexp : Wordexp) : List UInt8 → Machine → Except Fault Machine
  | [], m => .ok m
  | c :: rest, m => do
    let done ← m.turn wordexp c
    if done.2 then .ok done.1 else exec wordexp rest done.1

end Machine

/-- What `parseInput` returns and leaves: `discarded` went to `queueFree`, `leftover` to `free`. -/
structure Parse where
  queue : Queue
  p : Nat
  cs : Nat
  discarded : Queue
  leftover : Option Command
  session : Session

def parseStart (ss : Session) : Machine where
  p := 0
  fsm :=
    { buffer := { TextBuffer.unassigned with len := some 0 }
      stdin := .unassigned
      stdout := .unassigned
      cs := parserStart }
  queue := queueNew
  command := none
  session := ss

def parseEnd (m : Machine) : Parse where
  queue := if m.fsm.cs = parserError then queueNew else m.queue
  p := m.p
  cs := m.fsm.cs
  discarded := if m.fsm.cs = parserError then m.queue else []
  leftover := m.command
  session := m.session

def parseInput (wordexp : Wordexp) (ss : Session) (buffer : CString) : Except Fault Parse := do
  let m ← (parseStart ss).exec wordexp (buffer ++ [0])
  return parseEnd m

end Redshell
