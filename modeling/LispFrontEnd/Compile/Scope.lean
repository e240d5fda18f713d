import LispFrontEnd.Assoc

/-! # Lexical scopes

A scope binds source names to names that are safe in the target language. A name is looked up in
the scope and then in the scopes around it. A scope keeps the enclosing scopes as they were when it
was made.
-/

namespace LispFrontEnd

/-- The bindings of one scope in both directions, its nesting depth, and whether variadic arguments
can be used in it. -/
structure ScopeFrame where
  depth : Nat := 0
  manglings : Assoc String String := []
  unmanglings : Assoc String String := []
  vararg : Bool := false
deriving DecidableEq

/-- A scope with the scopes around it, innermost first. -/
structure Scope where
  frame : ScopeFrame := {}
  outer : List ScopeFrame := []
deriving DecidableEq

namespace Scope

def root : Scope := {}

/-- A new scope inside another, with variadic arguments if the other has them. -/
def child (parent : Scope) : Scope where
  frame := { depth := parent.frame.depth + 1, vararg := parent.frame.vararg }
  outer := parent.frame :: parent.outer

def parent? (scope : Scope) : Option Scope :=
  match scope.outer with
  | [] => none
  | frame :: outer => some ⟨frame, outer⟩

/-- Binds a name, and keeps the way back from an earlier mangled name of it. -/
def bind (scope : Scope) (name mangled : String) : Scope :=
  { scope with
    frame :=
      { scope.frame with
        manglings := Assoc.insert scope.frame.manglings name mangled
        unmanglings := Assoc.insert scope.frame.unmanglings mangled name } }

def setVararg (scope : Scope) (vararg : Bool) : Scope :=
  { scope with frame := { scope.frame with vararg } }

/-- The mangled name in the nearest scope that binds a name. -/
def mangling? (scope : Scope) (name : String) : Option String :=
  (scope.frame :: scope.outer).findSome? fun frame => Assoc.get? frame.manglings name

end Scope

end LispFrontEnd
