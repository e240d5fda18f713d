/-! # Paths written in one symbol

`a.b.c` is a field path and `a.b:c` a method call on `a.b`. `split` cuts a name at its separators,
`ofName?` accepts the cut names that follow the grammar, and `name` writes a path down again.
-/

namespace LispFrontEnd

/-- The segments of a path; `methodCall` says that the last one is introduced by a colon. -/
structure SymbolPath where
  segments : List String
  methodCall : Bool
deriving DecidableEq

namespace SymbolPath

def isSeparator (c : Char) : Bool := c == '.' || c == ':'

/-- The text before the first separator, and every later segment with the separator before it. -/
def split : List Char → List Char × List (Char × List Char)
  | [] => ([], [])
  | c :: rest =>
    let (segment, later) := split rest
    if isSeparator c then ([], (c, segment) :: later) else (c :: segment, later)

/-- A name is a path when it has a separator, no empty segment, and a colon at most before the last
segment. -/
def ofName? (name : String) : Option SymbolPath :=
  let (first, later) := split name.toList
  match later.getLast? with
  | none => none
  | some (last, _) =>
    let segments := first :: later.map (·.2)
    if segments.any List.isEmpty || later.dropLast.any (·.1 == ':') then none
    else some ⟨segments.map String.ofList, last == ':'⟩

/-- The name of a path: a dot between segments, and the colon of a method call before the last. -/
def name (path : SymbolPath) : String :=
  if path.methodCall then
    ".".intercalate path.segments.dropLast ++ ":" ++ path.segments.getLast?.getD ""
  else ".".intercalate path.segments

end SymbolPath

end LispFrontEnd
