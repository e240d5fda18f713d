import LispFrontEnd.Assoc

/-! # Plugins

A plugin is a set of event handlers with a name and the compiler versions that it declares support
for. Plugins are compared by identity: two that agree in all else are still two. What a handler is
is left to the type `H`.
-/

namespace LispFrontEnd

structure Plugin (H : Type) where
  id : Nat
  name : Option String := none
  versions : Option (List String) := none
  handlers : Assoc String H := []

/-- A version without one suffix that marks it as under development. -/
def releaseOf (version : String) : String :=
  let text := version.toList
  let suffix := ['-', 'd', 'e', 'v']
  if suffix.isSuffixOf text then String.ofList (text.take (text.length - suffix.length))
  else version

namespace Plugin

variable {H : Type}

def displayName (p : Plugin H) : String := p.name.getD "unknown"

/-- Registers a handler in place of any earlier one for the event. -/
def on (p : Plugin H) (event : String) (handler : H) : Plugin H :=
  { p with handlers := Assoc.insert p.handlers event handler }

def handler? (p : Plugin H) (event : String) : Option H := Assoc.get? p.handlers event

def handles (p : Plugin H) (event : String) : Bool := Assoc.contains p.handlers event

/-- A plugin without declared versions supports none. -/
def supports (p : Plugin H) (version : String) : Bool :=
  (p.versions.getD []).contains (releaseOf version)

end Plugin

end LispFrontEnd
