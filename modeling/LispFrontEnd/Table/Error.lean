import LispFrontEnd.Syntax.Value

/-! # Errors

What a caller can ask that cannot be done. A value of the wrong kind is otherwise no error: views
and readers answer nothing then.
-/

namespace LispFrontEnd

inductive TableError where
  | notATable (found : Value)
  | invalidKey (found : Value)

/-- A value as a table key. -/
def Key.ofValue (v : Value) : Except TableError Key :=
  match Key.ofValue? v with
  | some key => .ok key
  | none => .error (.invalidKey v)

end LispFrontEnd
