import SqlFold.Main
import SqlFold.Forest.Merge
import SqlFold.Json.Printer
import SqlFold.Proofs.Conservation
import SqlFold.Proofs.Sessions
import SqlFold.Proofs.Limits
import SqlFold.Proofs.Skipping
import SqlFold.Proofs.Shapes
import SqlFold.Proofs.Statements
import SqlFold.Proofs.Quiescence
import SqlFold.Proofs.Scanning
import SqlFold.Proofs.Nesting
import SqlFold.Proofs.Entailment
import SqlFold.Proofs.Lexing.Cursors
import SqlFold.Proofs.Lines
import SqlFold.Proofs.Rows.Cells
import SqlFold.Proofs.Rows.Regrouping
import SqlFold.Proofs.Diagnostics
import SqlFold.Proofs.Embedding
import SqlFold.Proofs.Histories
import SqlFold.Proofs.Violations
import SqlFold.Proofs.Merging.Basic
import SqlFold.Proofs.Chains
import SqlFold.Proofs.Resolution
import SqlFold.Proofs.Arguments
import SqlFold.Proofs.Formatting
import SqlFold.Proofs.Fingerprints
import SqlFold.Proofs.Hashes
import SqlFold.Proofs.Merging.Additions
import SqlFold.Proofs.Subqueries
import SqlFold.Proofs.Rejections
import SqlFold.Proofs.Sources
import SqlFold.Proofs.Assignments
import SqlFold.Proofs.Rows.Objections
import SqlFold.Proofs.Matching
import SqlFold.Proofs.Quotations
import SqlFold.Proofs.Vocabularies
import SqlFold.Proofs.Progress
import SqlFold.Proofs.Identifiers
import SqlFold.Proofs.QuotedNames
import SqlFold.Proofs.Ownership
import SqlFold.Proofs.Keys
import SqlFold.Proofs.Qualifiers
import SqlFold.Proofs.Outlines
import SqlFold.Proofs.Engine.Attempts
import SqlFold.Proofs.Regeneration.Respacing
