import DotProperties.Fix
import DotProperties.Workspace.Flight
import DotProperties.Proofs.Text.Continuation
import DotProperties.Proofs.Text.Joined
import DotProperties.Proofs.Text.Positions
import DotProperties.Proofs.Event.Placement
import DotProperties.Proofs.Event.Locality
import DotProperties.Proofs.Event.Resumption
import DotProperties.Proofs.Event.Boundary
import DotProperties.Proofs.Document.Coverage
import DotProperties.Proofs.Document.Arena
import DotProperties.Proofs.Document.Content
import DotProperties.Proofs.Document.Correction
import DotProperties.Proofs.Document.Completion
import DotProperties.Proofs.Workspace.Versions
import DotProperties.Proofs.Workspace.Race
import DotProperties.Proofs.Workspace.Flight
import DotProperties.Proofs.Workspace.Reference
import DotProperties.Proofs.Document.Ranges
import DotProperties.Proofs.Document.Lookup
import DotProperties.Proofs.Event.LineEnds
import DotProperties.Proofs.Document.LineEnds
import DotProperties.Proofs.Glob.Language
import DotProperties.Proofs.Glob.Plain
import DotProperties.Proofs.Document.Exclusion
import DotProperties.Proofs.Document.Rules
import DotProperties.Proofs.Document.Owners
import DotProperties.Proofs.Event.Polls
import DotProperties.Proofs.Workspace.Overtaking
import DotProperties.Proofs.Workspace.Changes
import DotProperties.Proofs.Document.Cursor
import DotProperties.Proofs.Document.Errors
import DotProperties.Proofs.Document.Offer
import DotProperties.Proofs.Document.Expression
import DotProperties.Proofs.Catalog.Placeholder
import DotProperties.Proofs.Document.Keys
import DotProperties.Proofs.Document.Composition
import DotProperties.Proofs.Document.Profiles
import DotProperties.Proofs.Document.Duplicates
import DotProperties.Proofs.Event.LineInvariant
