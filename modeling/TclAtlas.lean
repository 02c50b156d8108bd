import TclAtlas.Emitter.Reaction
import TclAtlas.Query.Definitions
import TclAtlas.Query.Variables
import TclAtlas.Reference
import TclAtlas.Session
import TclAtlas.Ordered.Buckets
import TclAtlas.Proofs.Catalog.Names
import TclAtlas.Proofs.Catalog.Coherence
import TclAtlas.Proofs.Ledger.Effects
import TclAtlas.Proofs.Ledger.Run
import TclAtlas.Proofs.Ledger.Overtaking
import TclAtlas.Proofs.Ledger.LastWord
import TclAtlas.Proofs.Scan.Locations
import TclAtlas.Proofs.Path.Joining
import TclAtlas.Proofs.Workspace.Following
import TclAtlas.Proofs.Workspace.Walk
import TclAtlas.Proofs.Workspace.Edits
import TclAtlas.Proofs.Ledger.Mirror
import TclAtlas.Proofs.Session.Calls
import TclAtlas.Proofs.Session.Upkeep
import TclAtlas.Proofs.Catalog.History
import TclAtlas.Proofs.Ledger.Rebuilding
import TclAtlas.Proofs.Word.Lexing
import TclAtlas.Proofs.Word.Spacing
import TclAtlas.Proofs.Outline.Merging
import TclAtlas.Proofs.Scan.Scopes
import TclAtlas.Proofs.Scan.Appending
import TclAtlas.Proofs.Word.Reading
import TclAtlas.Proofs.Script.Tree
import TclAtlas.Proofs.Script.Headers
import TclAtlas.Proofs.Script.Attribution
import TclAtlas.Proofs.Ledger.DirectUpdates
import TclAtlas.Proofs.Text.ByteOrder
import TclAtlas.Proofs.Catalog.Lookups
import TclAtlas.Proofs.Workspace.Acceptance
import TclAtlas.Proofs.Word.Closed
import TclAtlas.Proofs.DictLiteral.Decoding
import TclAtlas.Proofs.Catalog.Declaring
import TclAtlas.Proofs.Name.Parts
import TclAtlas.Proofs.Scan.Origins
import TclAtlas.Proofs.Resolution.QualifiedNames
import TclAtlas.Proofs.Resolution.OwnFile
import TclAtlas.Proofs.Session.Batches
import TclAtlas.Proofs.Ledger.Stamps
import TclAtlas.Proofs.Session.Interventions
import TclAtlas.Proofs.Session.Announcing
import TclAtlas.Proofs.Ledger.Forgetting
import TclAtlas.Proofs.Session.Rebuilding
import TclAtlas.Proofs.Session.Registering
import TclAtlas.Proofs.Session.Spelling
import TclAtlas.Proofs.Outline.WellFormed
import TclAtlas.Proofs.Scan.WellFormed
import TclAtlas.Proofs.Ordered.Firsts
import TclAtlas.Proofs.Resolution.Referents
import TclAtlas.Proofs.Resolution.Completion
import TclAtlas.Proofs.Catalog.Dictionaries
import TclAtlas.Proofs.Scan.Positions
import TclAtlas.Proofs.Script.InertLines
import TclAtlas.Proofs.Scan.Joining
import TclAtlas.Proofs.Outline.Parents
import TclAtlas.Proofs.Scan.Nesting
import TclAtlas.Proofs.Text.Pieces
import TclAtlas.Proofs.Word.Boundaries
import TclAtlas.Proofs.Word.Resplitting
import TclAtlas.Proofs.Word.Matching
import TclAtlas.Proofs.DictLiteral.Opacity
import TclAtlas.Proofs.Parameter.Cutting
import TclAtlas.Proofs.Parameter.Splitting
import TclAtlas.Proofs.Parameter.Specifiers
import TclAtlas.Proofs.Text.Backslashes
import TclAtlas.Proofs.Word.Tokenization
import TclAtlas.Proofs.Reference.Occurrences
import TclAtlas.Proofs.Workspace.Reordering
import TclAtlas.Proofs.Workspace.Collecting
import TclAtlas.Proofs.Ledger.Sights
import TclAtlas.Proofs.Session.Sights
import TclAtlas.Proofs.Emitter.Audience
import TclAtlas.Proofs.Scan.OpenBlocks
import TclAtlas.Proofs.Word.Content
import TclAtlas.Proofs.ByPosition.Cutting
import TclAtlas.Proofs.ByPosition.Words
import TclAtlas.Proofs.ByPosition.Literals
import TclAtlas.Proofs.ByPosition.Names
import TclAtlas.Proofs.ByPosition.Scanning
