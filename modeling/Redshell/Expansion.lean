import Redshell.Command
import Redshell.Helper

/-! The expansions of helper.c that call `wordexp`. -/
namespace Redshell

/-- The words `wordexp` gives on a call, with the calls before it counted; `none` is a failure. -/
abbrev Wordexp := Nat → CString → Option (List CString)

/-- A call of `wordexp`: from `expandGlob` or else from `expand`, with its text and result. -/
structure ExpandCall where
  glob : Bool
  text : CString
  result : Option (List CString)

/-- The aliases, the `wordexp` calls made so far, the latest first, and the number of commands
created. -/
structure Session where
  aliases : Aliases
  calls : List ExpandCall
  created : Nat

variable (wordexp : Wordexp)

/-- The result of a call, which is also entered in the session. -/
def callWordexp (glob : Bool) (text : CString) (ss : Session) :
    Option (List CString) × Session :=
  (wordexp ss.calls.length text,
    { ss with calls := ⟨glob, text, wordexp ss.calls.length text⟩ :: ss.calls })

/-- The word that the text expands to, NULL unless there is exactly one. -/
def singleWord : Option (List CString) → Option CString
  | some [word] => some word
  | _ => none

def expand (input : CString) (ss : Session) : Option CString × Session :=
  let called := callWordexp wordexp false input ss
  (singleWord called.1, called.2)

/-- The words stored in `command->argv`, none when the expansion fails. -/
def expandGlob (cmd : CString) (ss : Session) : Option (List CString) × Session :=
  callWordexp wordexp true cmd ss

/-- `expandAlias` on the session's dictionary. -/
def expandAliasIn (command : CString) (ss : Session) : CString × Session :=
  let expanded := expandAlias ss.aliases command
  (expanded.1, { ss with aliases := expanded.2 })

end Redshell
