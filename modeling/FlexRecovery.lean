import FlexRecovery.Box.Relations
import FlexRecovery.Number.Hundredths
import FlexRecovery.Number.Shortest
import FlexRecovery.Json.Reader
import FlexRecovery.Json.Writer
import FlexRecovery.Text.Quoted
import FlexRecovery.Document.Reading
import FlexRecovery.Options
import FlexRecovery.Journal
import FlexRecovery.Failure
import FlexRecovery.Styling.Run
import FlexRecovery.Tree
import FlexRecovery.Draft
import FlexRecovery.Ghosts
import FlexRecovery.Stacking
import FlexRecovery.Regroup.EqualBoxes
import FlexRecovery.Regroup.Overlap
import FlexRecovery.Regroup
import FlexRecovery.Resolve
import FlexRecovery.Output
import FlexRecovery.Outline
import FlexRecovery.Recovery
import FlexRecovery.Store
import FlexRecovery.Proofs.Accounts
import FlexRecovery.Proofs.Containment
import FlexRecovery.Proofs.Ownership
import FlexRecovery.Proofs.Sizing
import FlexRecovery.Proofs.Standing
import FlexRecovery.Proofs.Stripping
import FlexRecovery.Proofs.Termination
import FlexRecovery.Proofs.Texts
import FlexRecovery.Proofs.Translation.Resolving
import FlexRecovery.Proofs.Grounding
import FlexRecovery.Proofs.Canvas
import FlexRecovery.Proofs.Decorations
import FlexRecovery.Proofs.Extents
import FlexRecovery.Proofs.Positions
import FlexRecovery.Proofs.Wording
import FlexRecovery.Proofs.Flexbox.Aligned
import FlexRecovery.Proofs.Flexbox.Justified
import FlexRecovery.Proofs.Flexbox.Sprung
import FlexRecovery.Proofs.Stability
import FlexRecovery.Proofs.Stacked
import FlexRecovery.Proofs.Clearing
import FlexRecovery.Proofs.Strips
import FlexRecovery.Proofs.Grids
import FlexRecovery.Proofs.Repetition
import FlexRecovery.Proofs.Evenly
import FlexRecovery.Proofs.Reflow
import FlexRecovery.Proofs.Origins
import FlexRecovery.Proofs.Folding
import FlexRecovery.Proofs.Splicing
import FlexRecovery.Proofs.Lodging
import FlexRecovery.Proofs.Families
import FlexRecovery.Proofs.Emission
import FlexRecovery.Proofs.Numbering
import FlexRecovery.Proofs.Anchors
import FlexRecovery.Proofs.Stretches
import FlexRecovery.Proofs.Unambiguous
