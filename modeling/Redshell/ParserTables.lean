import Redshell.CString

/-! The tables of parser.c and the search of its loop for a transition. -/
namespace Redshell

def parserActions : List Nat :=
  [0, 1, 0, 1, 1, 1, 2, 1, 3, 1, 4, 1, 5, 1, 6, 1, 7, 2, 3, 0, 2, 4, 3, 3, 4, 3, 0]

def parserKeyOffsets : List Nat :=
  [0, 0, 9, 15, 21, 30, 39, 48, 54, 63, 69, 78, 84, 93, 99, 108]

def parserTransKeys : List Int :=
  [0, 32, 38, 62, 124, 9, 13, 59, 60, 0, 38, 59, 60, 62, 124, 0, 32, 59, 124, 9, 13, 0, 32, 38,
   62, 124, 9, 13, 59, 60, 0, 32, 38, 62, 124, 9, 13, 59, 60, 0, 32, 38, 62, 124, 9, 13, 59, 60,
   0, 38, 59, 60, 62, 124, 0, 32, 38, 62, 124, 9, 13, 59, 60, 0, 38, 59, 60, 62, 124, 0, 32, 38,
   62, 124, 9, 13, 59, 60, 0, 38, 59, 60, 62, 124, 0, 32, 38, 62, 124, 9, 13, 59, 60, 0, 38, 59,
   60, 62, 124, 0, 32, 38, 62, 124, 9, 13, 59, 60, 0]

def parserSingleLengths : List Nat := [0, 5, 6, 4, 5, 5, 5, 6, 5, 6, 5, 6, 5, 6, 5, 0]

def parserRangeLengths : List Nat := [0, 2, 0, 1, 2, 2, 2, 0, 2, 0, 2, 0, 2, 0, 2, 0]

def parserIndexOffsets : List Nat :=
  [0, 0, 8, 15, 21, 29, 37, 45, 52, 60, 67, 75, 82, 90, 97, 105]

def parserIndicies : List Nat :=
  [1, 2, 3, 3, 3, 2, 3, 0, 1, 5, 6, 7, 8, 9, 4, 1, 10, 6, 9, 10, 3, 3, 12, 3, 3, 3, 12, 3, 11, 3,
   13, 3, 3, 3, 13, 3, 4, 3, 7, 3, 3, 3, 7, 3, 14, 1, 5, 6, 3, 15, 9, 14, 3, 15, 3, 3, 3, 15, 3,
   16, 1, 5, 6, 3, 3, 9, 16, 3, 8, 3, 3, 3, 8, 3, 17, 1, 5, 6, 18, 3, 9, 17, 3, 18, 3, 3, 3, 18,
   3, 19, 1, 5, 6, 3, 3, 9, 19, 1, 20, 3, 3, 3, 20, 3, 4, 3, 0]

def parserTransTargs : List Nat :=
  [2, 15, 14, 0, 2, 3, 4, 6, 10, 4, 3, 2, 5, 5, 7, 8, 9, 11, 12, 13, 14]

def parserTransActions : List Nat :=
  [17, 9, 7, 0, 1, 13, 15, 0, 0, 11, 0, 23, 20, 0, 3, 0, 5, 5, 0, 3, 0]

def parserStart : Nat := 1

def parserError : Nat := 0

def parserKey (i : Int) : Int := parserTransKeys.getD i.toNat 0

/-- The binary search among single keys, for at most so many turns: the key's index. -/
def searchSingle (c : Int) : Nat → Int → Int → Option Int
  | 0, _, _ => none
  | n + 1, lower, upper =>
    if upper < lower then none
    else
      let mid := lower + (upper - lower) / 2
      if c < parserKey mid then searchSingle c n lower (mid - 1)
      else if parserKey mid < c then searchSingle c n (mid + 1) upper
      else some mid

/-- The binary search among ranges: the index of the low key of the range. -/
def searchRange (c : Int) : Nat → Int → Int → Option Int
  | 0, _, _ => none
  | n + 1, lower, upper =>
    if upper < lower then none
    else
      let half := (upper - lower) / 2
      let mid := lower + (half - half % 2)
      if c < parserKey mid then searchRange c n lower (mid - 2)
      else if parserKey (mid + 1) < c then searchRange c n (mid + 2) upper
      else some mid

/-- `_trans` at `_match`, for the character `c` in state `cs`. -/
def parserTrans (cs : Nat) (c : Int) : Nat :=
  let keys : Int := (parserKeyOffsets.getD cs 0 : Nat)
  let trans := parserIndexOffsets.getD cs 0
  let single := parserSingleLengths.getD cs 0
  let range := parserRangeLengths.getD cs 0
  match searchSingle c (single + 1) keys (keys + single - 1) with
  | some mid => trans + (mid - keys).toNat
  | none =>
    match searchRange c (range + 1) (keys + single) (keys + single + 2 * range - 2) with
    | some mid => trans + single + ((mid - (keys + single)) / 2).toNat
    | none => trans + single + range

/-- The next state and the codes of the actions, for the byte `c` read as a signed `char`. -/
def parserNext (cs : Nat) (c : UInt8) : Nat × List Nat :=
  let trans := parserIndicies.getD (parserTrans cs c.toInt8.toInt) 0
  let acts := parserTransActions.getD trans 0
  (parserTransTargs.getD trans 0,
    if acts = 0 then [] else (parserActions.drop (acts + 1)).take (parserActions.getD acts 0))

end Redshell
