import UiCatalog.Ancestry
import UiCatalog.AttributeType
import UiCatalog.Block
import UiCatalog.Block.Call
import UiCatalog.Block.Fault
import UiCatalog.Block.Reading
import UiCatalog.Block.Skip
import UiCatalog.Catalog
import UiCatalog.Definition
import UiCatalog.Definition.OfBlock
import UiCatalog.Diagnostic
import UiCatalog.Document
import UiCatalog.Effective
import UiCatalog.Entity
import UiCatalog.FileTree
import UiCatalog.FileTree.Build
import UiCatalog.FileTree.Collect
import UiCatalog.FileTree.Fault
import UiCatalog.Graph.Basic
import UiCatalog.Graph.Components
import UiCatalog.Graph.ShortestCycle
import UiCatalog.Graph.Unfolding
import UiCatalog.Json
import UiCatalog.Kind
import UiCatalog.Links
import UiCatalog.Loading
import UiCatalog.Navigation
import UiCatalog.Options
import UiCatalog.Problem
import UiCatalog.Proofs.Ancestry.Ascent
import UiCatalog.Proofs.Ancestry.Chain
import UiCatalog.Proofs.Ancestry.Cycles
import UiCatalog.Proofs.Ancestry.Line
import UiCatalog.Proofs.Block.BrokenAttribute
import UiCatalog.Proofs.Block.BrokenStatement
import UiCatalog.Proofs.Block.Call
import UiCatalog.Proofs.Block.File
import UiCatalog.Proofs.Block.Grammar
import UiCatalog.Proofs.Block.Locality
import UiCatalog.Proofs.Block.Moved
import UiCatalog.Proofs.Block.Placed
import UiCatalog.Proofs.Block.Progress
import UiCatalog.Proofs.Block.Provenance
import UiCatalog.Proofs.Block.Recovery
import UiCatalog.Proofs.Block.Statement
import UiCatalog.Proofs.Block.Writing
import UiCatalog.Proofs.Catalog.ByName
import UiCatalog.Proofs.Catalog.Clean
import UiCatalog.Proofs.Catalog.Contents
import UiCatalog.Proofs.Catalog.Forest
import UiCatalog.Proofs.Catalog.Problems
import UiCatalog.Proofs.Cycle
import UiCatalog.Proofs.Definition.Account
import UiCatalog.Proofs.Definition.Contents
import UiCatalog.Proofs.Definition.Head
import UiCatalog.Proofs.Definition.Properties
import UiCatalog.Proofs.Definition.Target
import UiCatalog.Proofs.Definition.WellStated
import UiCatalog.Proofs.Diagnostic.Key
import UiCatalog.Proofs.Diagnostic.Log
import UiCatalog.Proofs.Document.Joined
import UiCatalog.Proofs.Document.Spans
import UiCatalog.Proofs.Document.Written
import UiCatalog.Proofs.Effective.Attributes
import UiCatalog.Proofs.Effective.Cascade
import UiCatalog.Proofs.Effective.Settle
import UiCatalog.Proofs.Extension.Ancestry
import UiCatalog.Proofs.Extension.Catalog
import UiCatalog.Proofs.Extension.Links
import UiCatalog.Proofs.Extension.Navigation
import UiCatalog.Proofs.FileTree.Collected
import UiCatalog.Proofs.FileTree.Path
import UiCatalog.Proofs.FileTree.Reordered
import UiCatalog.Proofs.FileTree.Traversal
import UiCatalog.Proofs.FileTree.Walk
import UiCatalog.Proofs.Graph.BreadthFirst
import UiCatalog.Proofs.Graph.Components
import UiCatalog.Proofs.Graph.Expansion
import UiCatalog.Proofs.Graph.Extension
import UiCatalog.Proofs.Graph.Listing
import UiCatalog.Proofs.Graph.Renumbering
import UiCatalog.Proofs.Graph.Segments
import UiCatalog.Proofs.Graph.ShortestCycle
import UiCatalog.Proofs.Graph.Tarjan
import UiCatalog.Proofs.Graph.Unfolding
import UiCatalog.Proofs.Json.Reader
import UiCatalog.Proofs.Json.Written
import UiCatalog.Proofs.Links.Problems
import UiCatalog.Proofs.Links.Slots
import UiCatalog.Proofs.Navigation.Cycles
import UiCatalog.Proofs.Navigation.Reports
import UiCatalog.Proofs.Navigation.Trees
import UiCatalog.Proofs.Navigation.Unfolding
import UiCatalog.Proofs.Properties
import UiCatalog.Proofs.Registry.Blocks
import UiCatalog.Proofs.Registry.Indexed
import UiCatalog.Proofs.Registry.Lookup
import UiCatalog.Proofs.Renumbering.Ancestry
import UiCatalog.Proofs.Renumbering.Entity
import UiCatalog.Proofs.Renumbering.Links
import UiCatalog.Proofs.Renumbering.Navigation
import UiCatalog.Proofs.Renumbering.Registry
import UiCatalog.Proofs.Report
import UiCatalog.Proofs.Resolution.Accepted
import UiCatalog.Proofs.Resolution.Attributes
import UiCatalog.Proofs.Resolution.Cascade
import UiCatalog.Proofs.Resolution.Clean
import UiCatalog.Proofs.Resolution.Extension
import UiCatalog.Proofs.Resolution.Intake
import UiCatalog.Proofs.Resolution.Lineage
import UiCatalog.Proofs.Resolution.Lossless
import UiCatalog.Proofs.Resolution.Order
import UiCatalog.Proofs.Resolution.Reports
import UiCatalog.Proofs.Resolution.WellFormed
import UiCatalog.Proofs.SourceSet.Growth
import UiCatalog.Proofs.SourceSet.Origins
import UiCatalog.Proofs.Text.Blank
import UiCatalog.Proofs.Text.LineFeeds
import UiCatalog.Proofs.Text.LineStarts
import UiCatalog.Proofs.Text.LineTable
import UiCatalog.Proofs.Text.Quoted
import UiCatalog.Proofs.Text.Split
import UiCatalog.Proofs.Token.Lexeme
import UiCatalog.Proofs.Token.Longest
import UiCatalog.Proofs.Token.Pattern
import UiCatalog.Proofs.Token.Scan
import UiCatalog.Proofs.Token.Spelling
import UiCatalog.Proofs.Token.Tiling
import UiCatalog.Properties
import UiCatalog.Publication
import UiCatalog.Reference
import UiCatalog.Registry
import UiCatalog.Registry.Indexed
import UiCatalog.Report
import UiCatalog.Resolution
import UiCatalog.SourceSet
import UiCatalog.Text.Blank
import UiCatalog.Text.LineStarts
import UiCatalog.Text.LineTable
import UiCatalog.Text.Position
import UiCatalog.Text.Quoted
import UiCatalog.Text.Split
import UiCatalog.Token
import UiCatalog.Token.Scan
import UiCatalog.Uuid
