/-! # Debug flags

Debugging is switched on by a level: the word `all`, or a text that contains the flag.
-/

namespace LispFrontEnd.DebugFlag

/-- Whether one text stands somewhere in another. -/
def occursIn (part : List Char) : List Char → Bool
  | [] => part.isEmpty
  | c :: rest => part.isPrefixOf (c :: rest) || occursIn part rest

/-- Without a level no flag is on, and the empty flag is on only at the level `all`. -/
def isOn (level : Option String) (flag : String) : Bool :=
  match level with
  | none => false
  | some level => level == "all" || (!flag.isEmpty && occursIn flag.toList level.toList)

end LispFrontEnd.DebugFlag
