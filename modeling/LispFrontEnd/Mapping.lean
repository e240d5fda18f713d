import LispFrontEnd.Syntax.Value

/-! # Mapping over values

The callbacks run in any monad, once per item from left to right; `every` stops at the first item
that fails.
-/

namespace LispFrontEnd.Mapping

variable {m : Type → Type} [Monad m]

/-- Appends what the callback keeps of each item to a list. -/
def mapInto (f : Value → m (Option Value)) : List Value → List Value → m (List Value)
  | [], out => return out
  | item :: rest, out => do
    match ← f item with
    | some value => mapInto f rest (out ++ [value])
    | none => mapInto f rest out

def map (f : Value → m (Option Value)) (items : List Value) : m (List Value) :=
  mapInto f items []

def member (x : Value) (items : List Value) : Bool :=
  items.any fun item => item == x

def every (pred : Value → m Bool) : List Value → m Bool
  | [] => return true
  | item :: rest => do
    if ← pred item then every pred rest else return false

end LispFrontEnd.Mapping
