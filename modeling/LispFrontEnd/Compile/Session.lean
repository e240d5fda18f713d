import LispFrontEnd.Compile.Options
import LispFrontEnd.Compile.Scope
import LispFrontEnd.Syntax.Value

/-! # Compile sessions

A session has a live root (the code written so far, the scope, the options) on top of a stack of
roots that wait for a nested compile to end. It remembers which plugins it has warned about, and
every warning it has given.
-/

namespace LispFrontEnd

/-- The version of this compiler. -/
def compilerVersion : String := "0.1.0"

/-- The lines written by a compile. -/
structure Chunk where
  lines : List String := []
deriving DecidableEq

def Chunk.emit (chunk : Chunk) (line : String) : Chunk := ⟨chunk.lines ++ [line]⟩

def Chunk.text (chunk : Chunk) : String := "\n".intercalate chunk.lines

/-- The state of one compile. -/
structure Root (H : Type) where
  chunk : Chunk := {}
  scope : Option Scope := none
  options : CompileOptions H := {}

/-- The root of a new compile with given options, in a scope of its own. -/
def Root.ofOptions {H : Type} (options : CompileOptions H) : Root H :=
  { scope := some Scope.root, options }

inductive Warning where
  | message (text : String)
  /-- A plugin, by identity and name, does not declare support for a compiler version. -/
  | unsupported (plugin : Nat) (name version : String)
deriving DecidableEq

def Warning.text : Warning → String
  | .message text => text
  | .unsupported _ name version =>
    "plugin " ++ name ++ " not known to be compatible with Ember " ++ version

structure Session (H : Type) where
  root : Root H := {}
  /-- The waiting roots, the last one put aside first. -/
  saved : List (Root H) := []
  warned : List Nat := []
  warnings : List Warning := []

namespace Session

variable {H : Type}

def depth (s : Session H) : Nat := s.saved.length

/-- Makes a root the live one and puts the live one aside. -/
def enter (s : Session H) (root : Root H) : Session H :=
  { s with root, saved := s.root :: s.saved }

/-- Goes back to the root put aside last, and answers the root that was live; nothing happens when
no root waits. -/
def reset (s : Session H) : Option (Root H) × Session H :=
  match s.saved with
  | [] => (none, s)
  | root :: saved => (some s.root, { s with root, saved })

/-- Resets until no more than `depth` roots wait. -/
def unwind (s : Session H) (depth : Nat) : Session H :=
  Nat.repeat (fun s => s.reset.2) (s.depth - depth) s

def modifyRoot (s : Session H) (f : Root H → Root H) : Session H :=
  { s with root := f s.root }

/-- The version that plugins are checked against now. -/
def version (s : Session H) : String := s.root.options.version.getD compilerVersion

def warn (s : Session H) (warning : Warning) : Session H :=
  { s with warnings := s.warnings ++ [warning] }

/-- Whether a plugin supports the compiler version of now, with a warning the first time that it
does not. -/
def check (s : Session H) (p : Plugin H) : Bool × Session H :=
  if p.supports s.version then (true, s)
  else if p.id ∈ s.warned then (false, s)
  else
    (false, { s with warned := p.id :: s.warned }.warn (.unsupported p.id p.displayName s.version))

end Session

/-- How a handler is run on arguments, if its run ends, in a session and in the world `W` around it.
-/
abbrev Invoke (H W : Type) :=
  H → List Value → Session H × W → Option (Option Value × (Session H × W))

namespace Session

variable {H W : Type}

/-- Offers an event to plugins in turn, each after its check and whatever that finds, up to the
first truthy result. -/
def dispatch (invoke : Invoke H W) (event : String) (args : List Value) :
    List (Plugin H) → Session H × W → Option (Option Value × (Session H × W))
  | [], state => some (none, state)
  | p :: rest, (session, world) =>
    let session := (session.check p).2
    match p.handler? event with
    | none => dispatch invoke event args rest (session, world)
    | some handler =>
      match invoke handler args (session, world) with
      | none => none
      | some (result, state) =>
        match result.filter Value.isTruthy with
        | some value => some (some value, state)
        | none => dispatch invoke event args rest state

/-- Offers an event to the plugins that the live root has at the start. -/
def hook (invoke : Invoke H W) (event : String) (args : List Value) (state : Session H × W) :
    Option (Option Value × (Session H × W)) :=
  dispatch invoke event args state.1.root.options.plugins state

end Session

end LispFrontEnd
