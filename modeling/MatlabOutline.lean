import MatlabOutline.Catalog.Equality
import MatlabOutline.Catalog.Superclass
import MatlabOutline.Main
import MatlabOutline.Proofs.Blocks.Agreement
import MatlabOutline.Proofs.Blocks.MatchingEnd
import MatlabOutline.Proofs.Declaration.ParsedClass
import MatlabOutline.Proofs.LineEndings.Units
import MatlabOutline.Proofs.Reports.ReportedLines
import MatlabOutline.Proofs.Lexing.Spelling
import MatlabOutline.Proofs.WellFormed.Entity
import MatlabOutline.Proofs.WellFormed.Entries
import MatlabOutline.Proofs.WellFormed.Declarations
import MatlabOutline.Proofs.Checked.Bytes
import MatlabOutline.Proofs.Checked.Lexing
import MatlabOutline.Proofs.Checked.Passes
import MatlabOutline.Proofs.Checked.Docstrings
import MatlabOutline.Proofs.Checked.Units
import MatlabOutline.Proofs.Catalog.Files
import MatlabOutline.Proofs.Catalog.Order
import MatlabOutline.Proofs.Catalog.Law
import MatlabOutline.Proofs.Catalog.Lookups
import MatlabOutline.Proofs.Catalog.Grounded
import MatlabOutline.Proofs.Catalog.Sessions
import MatlabOutline.Proofs.Catalog.Meaning
import MatlabOutline.Proofs.Catalog.Sources
import MatlabOutline.Proofs.Catalog.Faithful
import MatlabOutline.Proofs.Catalog.Lasting
import MatlabOutline.Proofs.Catalog.Names
import MatlabOutline.Proofs.Catalog.Transparency
import MatlabOutline.Proofs.Catalog.Links
import MatlabOutline.Proofs.Catalog.Folders
import MatlabOutline.Proofs.Catalog.Members
import MatlabOutline.Proofs.Catalog.Levels
import MatlabOutline.Proofs.Catalog.ShortNames
import MatlabOutline.Proofs.Catalog.NameForms
import MatlabOutline.Proofs.Catalog.Ways
import MatlabOutline.Proofs.Catalog.Nearest
import MatlabOutline.Proofs.Catalog.DeclaredMethods
import MatlabOutline.Proofs.Catalog.OneFile
import MatlabOutline.Proofs.Catalog.UnitFiles
import MatlabOutline.Proofs.Catalog.OtherMembers
import MatlabOutline.Proofs.Catalog.AllLookups
import MatlabOutline.Proofs.Catalog.FileErrors
import MatlabOutline.Proofs.Catalog.LookupErrors
import MatlabOutline.Proofs.Catalog.FaultyFile
import MatlabOutline.Proofs.Lexing.Reach
import MatlabOutline.Proofs.Lexing.Spans
import MatlabOutline.Proofs.Lexing.Rereading
import MatlabOutline.Proofs.Normalize.JoinedTokens
import MatlabOutline.Proofs.Lexing.Context
import MatlabOutline.Proofs.Lexing.History
import MatlabOutline.Proofs.Lexing.CommentBlocks
import MatlabOutline.Proofs.Lexing.Shapes
import MatlabOutline.Proofs.Catalog.Comparison
import MatlabOutline.Proofs.Lexing.EndedText
import MatlabOutline.Proofs.Lexing.Writing
import MatlabOutline.Proofs.Declaration.EntryText
import MatlabOutline.Proofs.Declaration.EntryParts
import MatlabOutline.Proofs.Declaration.EntryReading
import MatlabOutline.Proofs.Declaration.ParsedProperties
import MatlabOutline.Proofs.Declaration.AttributeReading
import MatlabOutline.Proofs.Declaration.SharedLine
import MatlabOutline.Proofs.Declaration.ParsedFunction
import MatlabOutline.Proofs.Declaration.ParsedStubs
import MatlabOutline.Proofs.Docstring.LineComments
import MatlabOutline.Proofs.Docstring.AdjacentRuns
import MatlabOutline.Proofs.Normalize.ExpandedLines
import MatlabOutline.Proofs.Declaration.RemovedHeader
import MatlabOutline.Proofs.Declaration.ArgumentBlocks
import MatlabOutline.Proofs.Lexing.SourceLines
