import LispFrontEnd.Text.Escaped

/-! # Diagnostic records

The layout of diagnostic texts on one line: records with named fields, tagged options, lists and
maps.
-/

namespace LispFrontEnd.Text.Record

def bool (b : Bool) : String := if b then "true" else "false"

def tagged (tag text : String) : String := tag ++ "(" ++ text ++ ")"

def option {α : Type} (text : α → String) : Option α → String
  | none => "None"
  | some a => tagged "Some" (text a)

def list {α : Type} (text : α → String) (items : List α) : String :=
  "[" ++ ", ".intercalate (items.map text) ++ "]"

def record (name : String) (fields : List (String × String)) : String :=
  name ++ " \x7b " ++ ", ".intercalate (fields.map fun (field, text) => field ++ ": " ++ text) ++
    " \x7d"

/-- A map of strings to strings. -/
def map (entries : List (String × String)) : String :=
  "\x7b" ++
    ", ".intercalate
      (entries.map fun (key, value) => Escaped.literal key ++ ": " ++ Escaped.literal value) ++
    "\x7d"

end LispFrontEnd.Text.Record
