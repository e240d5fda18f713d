import LispFrontEnd.Syntax.Node
import LispFrontEnd.Compile.Plugin

/-! # Options of a compile

Six of the options pass from a compile to the compiles nested in it: an option that the parent sets
replaces that of the child, one that the parent leaves unset stays as the child has it. All other
options are the child's own.
-/

namespace LispFrontEnd

/-- An environment to compile against: a table, that of the compiler itself, or one that holds safe
globals only. -/
inductive Environment where
  | table (table : Table)
  | compiler
  | strict

def Environment.beq : Environment → Environment → Bool
  | .table a, .table b => a == b
  | .compiler, .compiler => true
  | .strict, .strict => true
  | _, _ => false

instance : BEq Environment := ⟨Environment.beq⟩

structure CompileOptions (H : Type) where
  /-- Globals that the compiled code may refer to; any, when absent. -/
  allowedGlobals : Option (List String) := none
  indent : Option String := none
  correlate : Option Bool := none
  useMetadata : Option Bool := none
  env : Option Environment := none
  compilerEnv : Option Environment := none
  filename : Option String := none
  moduleName : Option String := none
  requireAsInclude : Bool := false
  plugins : List (Plugin H) := []
  /-- The compiler version that plugins are checked against, in place of the real one. -/
  version : Option String := none

inductive InheritedOption where
  | allowedGlobals
  | indent
  | correlate
  | useMetadata
  | env
  | compilerEnv
deriving DecidableEq

namespace InheritedOption

def all : List InheritedOption :=
  [.allowedGlobals, .indent, .correlate, .useMetadata, .env, .compilerEnv]

def name : InheritedOption → String
  | .allowedGlobals => "allowed-globals"
  | .indent => "indent"
  | .correlate => "correlate"
  | .useMetadata => "use-metadata"
  | .env => "env"
  | .compilerEnv => "compiler-env"

def ofName? : String → Option InheritedOption
  | "allowed-globals" => some .allowedGlobals
  | "indent" => some .indent
  | "correlate" => some .correlate
  | "use-metadata" => some .useMetadata
  | "env" => some .env
  | "compiler-env" => some .compilerEnv
  | _ => none

/-- Copies one option to the child if the parent sets it. -/
def pass {H : Type} (parent child : CompileOptions H) : InheritedOption → CompileOptions H
  | .allowedGlobals =>
    { child with allowedGlobals := parent.allowedGlobals.or child.allowedGlobals }
  | .indent => { child with indent := parent.indent.or child.indent }
  | .correlate => { child with correlate := parent.correlate.or child.correlate }
  | .useMetadata => { child with useMetadata := parent.useMetadata.or child.useMetadata }
  | .env => { child with env := parent.env.or child.env }
  | .compilerEnv => { child with compilerEnv := parent.compilerEnv.or child.compilerEnv }

end InheritedOption

namespace CompileOptions

variable {H : Type}

/-- Copies the inherited option with a name, and nothing under any other name. -/
def passNamed? (parent child : CompileOptions H) (name : String) : Option (CompileOptions H) :=
  (InheritedOption.ofName? name).map fun option => option.pass parent child

/-- The options of a nested compile, from its own options or from none. -/
def propagate (parent : CompileOptions H) (child : Option (CompileOptions H)) : CompileOptions H :=
  InheritedOption.all.foldl (fun child option => option.pass parent child) (child.getD {})

end CompileOptions

end LispFrontEnd
