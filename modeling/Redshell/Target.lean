import Redshell.Turns

/-! The process that SIGINT hits: what `fg_pid` is after every deed of a line, and for which command
that process was forked. -/
namespace Redshell

def Deed.forkedAs (pid : Int) : Deed → Option Nat
  | fork child value => if value = pid then some child else none
  | _ => none

def Deed.fgPid : Deed → Option Int
  | setFgPid pid => some pid
  | _ => none

def fgPids (done : List Done) : List Int := done.filterMap fun d => d.deed.fgPid

/-- No process is forked, and `fg_pid` is left or set to 0. -/
def Settling (done : List Done) : Prop :=
  ∀ d ∈ done, (∀ value, d.deed.fgPid = some value → value = 0) ∧ ∀ pid, d.deed.forkedAs pid = none

variable {host : Host} {q : Queue} {k : Nat} {pid : Int} {done done' : List Done}

/-! Prefixes of lists. -/

section

variable {α : Type} {l l' : List α} {a : α} {P : List α → Prop}

end

/-! The values that `fg_pid` takes. -/

theorem Settling.append (h : Settling done) (h' : Settling done') : Settling (done ++ done') :=
  fun d hd => (List.mem_append.mp hd).elim (h d) (h' d)

end Redshell
