/-! # Source spans

Where a node came from in the source text. Every field may be absent: a node made by a macro often
has a file name only.
-/

namespace LispFrontEnd

structure SourceSpan where
  filename : Option String := none
  line : Option UInt32 := none
  byteStart : Option UInt64 := none
  byteEnd : Option UInt64 := none
deriving DecidableEq

namespace SourceSpan

def isEmpty (span : SourceSpan) : Bool :=
  span.filename.isNone && span.line.isNone && span.byteStart.isNone && span.byteEnd.isNone

/-- The file name, with the line after a colon. -/
def text (span : SourceSpan) : String :=
  span.filename.getD "unknown" ++
    match span.line with
    | some line => ":" ++ toString line.toNat
    | none => ""

end SourceSpan

end LispFrontEnd
