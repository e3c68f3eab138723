import Disinherit.Class.Check
import Disinherit.Class.ParentGraph
import Disinherit.Class.Registry
import Disinherit.Command.Arguments
import Disinherit.Command.Host
import Disinherit.Command.Run
import Disinherit.Command.Split
import Disinherit.Compile
import Disinherit.Decimal.Shortest
import Disinherit.Diagnostic
import Disinherit.Directory
import Disinherit.Event
import Disinherit.Flatten
import Disinherit.Fragment
import Disinherit.Json
import Disinherit.Layout.LineWriter
import Disinherit.Layout.Reindent
import Disinherit.Lineage
import Disinherit.Main
import Disinherit.Member.Basic
import Disinherit.Member.Declaration
import Disinherit.Member.Identity
import Disinherit.Member.Members
import Disinherit.Options
import Disinherit.Proofs.Class.Body
import Disinherit.Proofs.Class.Comments
import Disinherit.Proofs.Class.Kept
import Disinherit.Proofs.Class.Mirror
import Disinherit.Proofs.Class.Regrouping
import Disinherit.Proofs.Class.Validation
import Disinherit.Proofs.Command.Grammar
import Disinherit.Proofs.Command.Leftovers
import Disinherit.Proofs.Command.Splitting
import Disinherit.Proofs.Command.Strictness
import Disinherit.Proofs.Command.World
import Disinherit.Proofs.Compile.Failure
import Disinherit.Proofs.Compile.Placement
import Disinherit.Proofs.Compile.Reading
import Disinherit.Proofs.Compile.Writing
import Disinherit.Proofs.Directory
import Disinherit.Proofs.Layout.LaidOut
import Disinherit.Proofs.Layout.Line
import Disinherit.Proofs.Layout.LineByLine
import Disinherit.Proofs.Layout.Literals
import Disinherit.Proofs.Layout.Moves
import Disinherit.Proofs.Lineage.Ancestry
import Disinherit.Proofs.Lineage.Coexistence
import Disinherit.Proofs.Lineage.History
import Disinherit.Proofs.Lineage.Locality
import Disinherit.Proofs.Lineage.Nearest
import Disinherit.Proofs.Lineage.Overlay
import Disinherit.Proofs.Lineage.Override
import Disinherit.Proofs.Lineage.Reach
import Disinherit.Proofs.Lineage.Walk
import Disinherit.Proofs.Lists
import Disinherit.Proofs.Members
import Disinherit.Proofs.Members.Flat
import Disinherit.Proofs.Members.Stations
import Disinherit.Proofs.Registry
import Disinherit.Proofs.Super.Account
import Disinherit.Proofs.Super.Allocation
import Disinherit.Proofs.Super.BaseCalls
import Disinherit.Proofs.Super.BaseStatements
import Disinherit.Proofs.Super.Chain
import Disinherit.Proofs.Super.Closure
import Disinherit.Proofs.Super.Collision
import Disinherit.Proofs.Super.Copies
import Disinherit.Proofs.Super.Extent
import Disinherit.Proofs.Super.FieldOrder
import Disinherit.Proofs.Super.Names
import Disinherit.Proofs.Super.Overlap
import Disinherit.Proofs.Super.Places
import Disinherit.Proofs.Super.Prototype
import Disinherit.Proofs.Super.Reading
import Disinherit.Proofs.Super.Removal
import Disinherit.Proofs.Super.Rendered
import Disinherit.Proofs.Super.Resolution
import Disinherit.Proofs.Super.Scan
import Disinherit.Proofs.Super.Written
import Disinherit.Proofs.Text.Boundaries
import Disinherit.Proofs.Text.Splice
import Disinherit.Proofs.Text.Substitution
import Disinherit.Proofs.Text.Weaving
import Disinherit.Proofs.Tree.Faults
import Disinherit.Proofs.Tree.Nesting
import Disinherit.Proofs.Tree.Samples
import Disinherit.Proofs.Tree.Spans
import Disinherit.Proofs.Tree.Spelling
import Disinherit.Script.Basic
import Disinherit.Script.ClassStatement
import Disinherit.Super.Constructors
import Disinherit.Super.Copies
import Disinherit.Super.Names
import Disinherit.Super.Reference
import Disinherit.Super.Resolution
import Disinherit.Table
import Disinherit.Text.Blank
import Disinherit.Text.Edit
import Disinherit.Text.Printable
import Disinherit.Text.Quoted
import Disinherit.Text.Source
import Disinherit.Tree.Kind
import Disinherit.Tree.Listing
import Disinherit.Tree.Node
import Disinherit.View
