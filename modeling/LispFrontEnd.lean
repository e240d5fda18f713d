import LispFrontEnd.Compile.DebugFlag
import LispFrontEnd.Compile.Diagnostic
import LispFrontEnd.Compile.Program
import LispFrontEnd.Heap.Symbols
import LispFrontEnd.Mapping
import LispFrontEnd.Printing
import LispFrontEnd.Proofs.Assoc
import LispFrontEnd.Proofs.Syntax.Identity
import LispFrontEnd.Proofs.Table.CanonicalOrder
import LispFrontEnd.Proofs.Table.SortKey
import LispFrontEnd.Proofs.Text.ByteOrder
import LispFrontEnd.Table.ChainCursor
import LispFrontEnd.Table.Collect
import LispFrontEnd.Table.EntryCursor
import LispFrontEnd.Table.SpanFields
import LispFrontEnd.Walk
import LispFrontEnd.Proofs.Table.Enumeration
import LispFrontEnd.Proofs.Heap.Image
import LispFrontEnd.Proofs.Table.OrderIndependence
import LispFrontEnd.Proofs.Table.LiveIteration
import LispFrontEnd.Proofs.Table.DelegateChain
import LispFrontEnd.Proofs.Table.Inheritance
import LispFrontEnd.Proofs.Table.LiveChain
import LispFrontEnd.Proofs.Compile.Brackets
import LispFrontEnd.Proofs.Compile.Nested
import LispFrontEnd.Proofs.Compile.Dispatch
import LispFrontEnd.Proofs.Compile.Warnings
import LispFrontEnd.Proofs.Printing
import LispFrontEnd.Proofs.Syntax.SymbolPath
import LispFrontEnd.Proofs.Table.PartialMap
import LispFrontEnd.Proofs.Table.Refinement
import LispFrontEnd.Proofs.Walk.Below
import LispFrontEnd.Proofs.Walk.Worklist
import LispFrontEnd.Proofs.Walk.Preorder
import LispFrontEnd.Proofs.Walk.SiblingOrder
import LispFrontEnd.Proofs.Heap.NodeOrder
import LispFrontEnd.Proofs.Table.SpanRoundTrip
import LispFrontEnd.Proofs.Table.NearestFirst
import LispFrontEnd.Proofs.Table.SourceOrder
import LispFrontEnd.Proofs.Binary64.Integers
import LispFrontEnd.Proofs.Binary64.Nearest
import LispFrontEnd.Proofs.Syntax.ValueEquality
import LispFrontEnd.Proofs.Syntax.KeyConversion
import LispFrontEnd.Proofs.Compile.NestedOptions
import LispFrontEnd.Proofs.Walk.LiveWalk
import LispFrontEnd.Proofs.Table.Border
import LispFrontEnd.Proofs.Table.Appending
import LispFrontEnd.Proofs.Table.Copying
import LispFrontEnd.Proofs.Compile.ScopeHistory
import LispFrontEnd.Proofs.Text.Quoted
import LispFrontEnd.Proofs.Table.SpanReading
import LispFrontEnd.Proofs.Syntax.TextStore
import LispFrontEnd.Proofs.Table.Positions
import LispFrontEnd.Proofs.Heap.Handles
import LispFrontEnd.Proofs.Heap.Follows
import LispFrontEnd.Proofs.Heap.Runs
