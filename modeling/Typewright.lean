import Typewright.CharacterTable
import Typewright.CommandLine
import Typewright.Description.Diagnostic
import Typewright.Description.Json
import Typewright.Description.Reader
import Typewright.Description.Resolve
import Typewright.Description.Section
import Typewright.Description.Similar
import Typewright.Description.TypeForm
import Typewright.Edn.Atom
import Typewright.Edn.Form
import Typewright.Edn.Token
import Typewright.Folder
import Typewright.Graph.Basic
import Typewright.Graph.Order
import Typewright.Graph.Walk
import Typewright.Main
import Typewright.Module.Basic
import Typewright.Module.Naming
import Typewright.Module.Render
import Typewright.Module.Sheet
import Typewright.Module.TypeExpr
import Typewright.Name.Assign
import Typewright.Name.Identifier
import Typewright.Name.Style
import Typewright.Name.Table
import Typewright.Name.Word
import Typewright.Number.Binary64
import Typewright.Options
import Typewright.Proofs.Graph.Extension
import Typewright.Proofs.Graph.Growth
import Typewright.Proofs.Graph.Order
import Typewright.Proofs.Graph.Postorder
import Typewright.Proofs.Graph.Reach
import Typewright.Proofs.Graph.Renaming
import Typewright.Proofs.Module.Annotation
import Typewright.Proofs.Module.Binding
import Typewright.Proofs.Module.Layout
import Typewright.Proofs.Module.Lines
import Typewright.Proofs.Module.Mention
import Typewright.Proofs.Module.Naming
import Typewright.Proofs.Module.Rank
import Typewright.Proofs.Module.Render
import Typewright.Proofs.Module.TypeExpr
import Typewright.Proofs.Name.Assign
import Typewright.Proofs.Name.Spelling
import Typewright.Proofs.Outcome
import Typewright.Text.Bytes
import Typewright.Text.Character
import Typewright.Text.Position
import Typewright.Text.Utf8
import Typewright.Trace
import Typewright.Proofs.Module.Renaming
import Typewright.Proofs.Description.Key
import Typewright.Proofs.Description.Growth
import Typewright.Proofs.Description.Spelling
import Typewright.Proofs.Description.Tracking
import Typewright.Proofs.Description.Resolution
import Typewright.Proofs.Description.Declarations
import Typewright.Proofs.Description.Elaboration
import Typewright.Proofs.Description.Scope
import Typewright.Proofs.Description.Acceptance
import Typewright.Proofs.Description.Denotation
import Typewright.Proofs.Description.Unreachable
import Typewright.Proofs.Description.Isomorphism
import Typewright.Proofs.Description.Permutation
import Typewright.Proofs.Graph.InPlace
import Typewright.Proofs.Graph.Invariant
import Typewright.Proofs.Module.Imports
import Typewright.Proofs.Module.Paragraphs
import Typewright.Proofs.Edn.Grammar
import Typewright.Proofs.Edn.Trivia
import Typewright.Proofs.Edn.Numerals
import Typewright.Proofs.Edn.Lexing
import Typewright.Proofs.Edn.Building
import Typewright.Proofs.Edn.Located
import Typewright.Proofs.Edn.Parsing
import Typewright.Proofs.Edn.Positions
import Typewright.Proofs.Edn.Printing
import Typewright.Proofs.Module.PhysicalLines
import Typewright.Proofs.Module.Shape
import Typewright.Proofs.Description.Beside
import Typewright.Proofs.Description.History
import Typewright.Proofs.Module.Desk
import Typewright.Proofs.Module.Session
import Typewright.Proofs.Graph.Unfolding
import Typewright.Proofs.Graph.UnionModes
import Typewright.Proofs.Json.Decoder
import Typewright.Proofs.Json.RoundTrip
import Typewright.Proofs.Text.Bytes
import Typewright.Proofs.Text.CharacterTable
import Typewright.Proofs.Text.Utf8
import Typewright.Proofs.Text.Conversion
import Typewright.Proofs.Name.Identifier
import Typewright.Proofs.Name.FirstFree
import Typewright.Proofs.Name.WordShape
import Typewright.Proofs.Name.Scanner
import Typewright.Proofs.Name.AtomicWords
import Typewright.Proofs.Name.Idempotence
import Typewright.Proofs.Description.Attempt
import Typewright.Proofs.Description.Cycles
import Typewright.Proofs.Description.UnionNames
import Typewright.Proofs.Description.Course
import Typewright.Proofs.Description.RecursiveUnions
import Typewright.Proofs.Description.Distance
import Typewright.Proofs.Description.Suggestions
import Typewright.Proofs.CommandLine.Arguments
import Typewright.Proofs.CommandLine.Run
import Typewright.Proofs.Graph.Search
import Typewright.Proofs.Graph.Stamps
