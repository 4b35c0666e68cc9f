import Factbase.Config
import Factbase.Diagram.Body.Reader
import Factbase.Diagram.Count
import Factbase.Diagram.Cursor
import Factbase.Diagram.Dot
import Factbase.Diagram.Edge
import Factbase.Diagram.Manager
import Factbase.Diagram.Quantify
import Factbase.Diagram.Reach
import Factbase.Domain.Canon
import Factbase.Domain.File
import Factbase.Numeric.Pairing
import Factbase.Numeric.Width
import Factbase.Relation.Algebra
import Factbase.Relation.Storage
import Factbase.Relation.View
import Factbase.Signature
import Factbase.Text.Blank
import Factbase.Text.Numeral
import Factbase.Text.Quoted
import Factbase.Proofs.Outcome
import Factbase.Proofs.Diagram.Chains
import Factbase.Proofs.Diagram.Levels
import Factbase.Proofs.Diagram.Meaning
import Factbase.Proofs.Diagram.Canonical
import Factbase.Proofs.Diagram.Building
import Factbase.Proofs.Diagram.Choice
import Factbase.Proofs.Diagram.Quantifier
import Factbase.Proofs.Diagram.Cubes
import Factbase.Proofs.Diagram.Rebuilding
import Factbase.Proofs.Diagram.Histories
import Factbase.Proofs.Diagram.Conjunctions
import Factbase.Proofs.Diagram.Counting
import Factbase.Proofs.Diagram.Sweeping
import Factbase.Proofs.Diagram.Paths
import Factbase.Proofs.Diagram.Walking
import Factbase.Proofs.Diagram.Words
import Factbase.Proofs.Diagram.Settings
import Factbase.Proofs.Diagram.Cursors
import Factbase.Proofs.Diagram.Coverage
import Factbase.Proofs.Relation.Layouts
import Factbase.Proofs.Relation.Encoding
import Factbase.Proofs.Relation.Ranges
import Factbase.Proofs.Relation.Checking
import Factbase.Proofs.Relation.Invariant
import Factbase.Proofs.Relation.Editing
import Factbase.Proofs.Relation.Viewing
import Factbase.Proofs.Relation.Lifetimes
import Factbase.Proofs.Relation.Spelling
import Factbase.Proofs.Relation.Cardinality
import Factbase.Proofs.Relation.TupleSets
import Factbase.Proofs.Relation.Enumerating
import Factbase.Proofs.Diagram.Thrift
import Factbase.Proofs.Diagram.Twins
import Factbase.Proofs.Diagram.Sizing
import Factbase.Proofs.Text.Rendering
import Factbase.Proofs.Diagram.Bodies
import Factbase.Proofs.Diagram.Graphs
import Factbase.Proofs.Diagram.Codec
import Factbase.Proofs.Diagram.Transfer
import Factbase.Proofs.Diagram.Alignment
import Factbase.Proofs.Relation.Carrying
import Factbase.Proofs.Relation.Combining
import Factbase.Proofs.Signatures
import Factbase.Proofs.Text.Bytes
import Factbase.Proofs.Relation.Opening
import Factbase.Proofs.Relation.Directions
import Factbase.Proofs.Relation.Headers
import Factbase.Proofs.Relation.Fitting
import Factbase.Proofs.Text.Cutting
import Factbase.Proofs.Files
import Factbase.Proofs.Relation.Storing
import Factbase.Proofs.Relation.CanonicalFiles
import Factbase.Proofs.Relation.Decoding
import Factbase.Proofs.Relation.Confinement
import Factbase.Proofs.Relation.Accepting
import Factbase.Proofs.Relation.Loading
import Factbase.Proofs.Relation.Truncation
import Factbase.Proofs.Relation.Narrowing
import Factbase.Proofs.Relation.Views
import Factbase.Proofs.Diagram.Resting
import Factbase.Proofs.Relation.Lending
import Factbase.Proofs.Relation.Sources
import Factbase.Proofs.Relation.Interleaving
import Factbase.Proofs.Relation.InPlace
import Factbase.Proofs.Numberings
import Factbase.Proofs.Domains
import Factbase.Proofs.Relation.Typing
import Factbase.Proofs.Relation.Lifecycle
import Factbase.Proofs.Relation.Fields
import Factbase.Proofs.Diagram.Profiles
import Factbase.Proofs.Diagram.Stacks
import Factbase.Proofs.Diagram.Traversals
import Factbase.Proofs.Diagram.Ranks
import Factbase.Proofs.Diagram.DotTexts
import Factbase.Proofs.Diagram.Pictures
import Factbase.Proofs.Diagram.Drawings
import Factbase.Proofs.Diagram.Consing
import Factbase.Proofs.Orders
import Factbase.Proofs.DomainFiles
import Factbase.Proofs.Diagram.Halving
import Factbase.Proofs.Diagram.Splits
import Factbase.Proofs.Diagram.Blocks
import Factbase.Proofs.Diagram.Retries
import Factbase.Proofs.Diagram.Dependence
import Factbase.Proofs.Diagram.Descents
import Factbase.Proofs.Text.Numerals
import Factbase.Proofs.Diagram.Acceptance
import Factbase.Proofs.Relation.Projecting
import Factbase.Proofs.Relation.Products
import Factbase.Proofs.Relation.Misuse
import Factbase.Proofs.SignatureTexts
import Factbase.Proofs.DomainCollisions
import Factbase.Proofs.Relation.Dealing
import Factbase.Proofs.Relation.Placement
import Factbase.Proofs.Pairings
