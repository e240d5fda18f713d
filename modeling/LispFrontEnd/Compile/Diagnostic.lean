import LispFrontEnd.Compile.Session
import LispFrontEnd.Table.Basic
import LispFrontEnd.Text.Record

/-! # Diagnostic texts

One-line descriptions of plugins, tables and sessions for developers. They are shallow: a table
shows counts and not entries, and identities are masked, so that equal states read the same.
-/

namespace LispFrontEnd

open Text

def SourceSpan.diagnostic (span : SourceSpan) : String :=
  Record.record "SourceSpan"
    [("filename", Record.option Escaped.literal span.filename),
     ("line", Record.option (fun n => toString n.toNat) span.line),
     ("bytestart", Record.option (fun n => toString n.toNat) span.byteStart),
     ("byteend", Record.option (fun n => toString n.toNat) span.byteEnd)]

def Table.diagnostic (h : Heap) (t : Table) : String :=
  Record.record "Table"
    [("id", Escaped.literal "#"),
     ("len", toString (h.entryCount t)),
     ("ordered", Record.bool (h.keyOrder t).isSome),
     ("delegate", Record.option (fun _ => "#") (h.delegate t)),
     ("span", Record.option SourceSpan.diagnostic t.span)]

variable {H : Type}

/-- The events of a plugin are listed in order. -/
def Plugin.diagnostic (p : Plugin H) : String :=
  let events := (Assoc.keys p.handlers).mergeSort fun a b => a ≤ b
  Record.record "Plugin"
    [("name", Record.option Escaped.literal p.name),
     ("versions", Record.option (Record.list Escaped.literal) p.versions),
     ("events", Record.list Escaped.literal events)]

def Environment.diagnostic (h : Heap) : Environment → String
  | .table t => Record.tagged "Table" (t.diagnostic h)
  | .compiler => "Compiler"
  | .strict => "Strict"

def CompileOptions.diagnostic (h : Heap) (o : CompileOptions H) : String :=
  Record.record "CompileOptions"
    [("allowed_globals", Record.option (Record.list Escaped.literal) o.allowedGlobals),
     ("indent", Record.option Escaped.literal o.indent),
     ("correlate", Record.option Record.bool o.correlate),
     ("use_metadata", Record.option Record.bool o.useMetadata),
     ("env", Record.option (Environment.diagnostic h) o.env),
     ("compiler_env", Record.option (Environment.diagnostic h) o.compilerEnv),
     ("filename", Record.option Escaped.literal o.filename),
     ("module_name", Record.option Escaped.literal o.moduleName),
     ("require_as_include", Record.bool o.requireAsInclude),
     ("plugins", Record.list Plugin.diagnostic o.plugins),
     ("version", Record.option Escaped.literal o.version)]

/-- The scopes from the outermost one inwards, each in the text of the next. -/
def Scope.diagnostic (scope : Scope) : String :=
  let frameText (frame : ScopeFrame) (parent : Option String) : String :=
    Record.record "Scope"
      [("parent", Record.option id parent),
       ("depth", toString frame.depth),
       ("manglings", Record.map frame.manglings),
       ("unmanglings", Record.map frame.unmanglings),
       ("vararg", Record.bool frame.vararg)]
  frameText scope.frame (scope.outer.foldr (fun frame parent => some (frameText frame parent)) none)

def Root.diagnostic (h : Heap) (root : Root H) : String :=
  Record.record "Root"
    [("chunk", Record.record "Chunk" [("lines", Record.list Escaped.literal root.chunk.lines)]),
     ("scope", Record.option Scope.diagnostic root.scope),
     ("options", root.options.diagnostic h)]

def Session.diagnostic (h : Heap) (s : Session H) : String :=
  Record.record "Session"
    [("root", s.root.diagnostic h),
     ("depth", toString s.depth),
     ("warned", toString s.warned.length)]

end LispFrontEnd
