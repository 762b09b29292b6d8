import Redshell.MainLoop

/-! The history as a record of the session: its lines, executed verbatim, do all of it again. -/
namespace Redshell

/-- The line as `history_expand` makes it. -/
def Readline.expanded (readline : Readline) (call : Call) (history : List CString) : Call :=
  { call with
    line := readline.text history call.line
    plain := readline.plain history call.line call.plain }

variable {readline : Readline} {call : Call} {console : Console}

end Redshell
