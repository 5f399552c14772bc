import Loom.Main
import Loom.Proofs.Effect
import Loom.Proofs.Placement
import Loom.Proofs.Reading.Standard
import Loom.Proofs.Reading.Expression
import Loom.Proofs.Reading.Statement
import Loom.Proofs.Reading.Placed
import Loom.Proofs.Totality
import Loom.Proofs.Held
import Loom.Proofs.Discipline
import Loom.Proofs.Discipline.Operator
import Loom.Proofs.Discipline.Expression
import Loom.Proofs.Discipline.Call
import Loom.Proofs.Discipline.Import
import Loom.Proofs.Discipline.Statement
import Loom.Proofs.Discipline.Machine
import Loom.Proofs.Discipline.Session
import Loom.Proofs.Control
import Loom.Proofs.Loading
import Loom.Proofs.Events
import Loom.Proofs.Encapsulation
import Loom.Proofs.Aliasing
import Loom.Proofs.Sharing
import Loom.Proofs.Exits
import Loom.Proofs.Density
import Loom.Proofs.Following
import Loom.Proofs.Watching
import Loom.Proofs.CallDepth
import Loom.Proofs.Lexing
import Loom.Proofs.Literal
import Loom.Proofs.Tiling
import Loom.Proofs.Position
import Loom.Proofs.Reading.Outcome
import Loom.Proofs.Tally
import Loom.Proofs.Tally.Cursor
import Loom.Proofs.Tally.Expression
import Loom.Proofs.Tally.Statement
import Loom.Proofs.Submission
import Loom.Proofs.Double
import Loom.Proofs.Comparison
import Loom.Proofs.Resetting
import Loom.Proofs.Blame
import Loom.Proofs.Tree.Kept
import Loom.Proofs.Tree.RoundTrip
import Loom.Proofs.Signals
import Loom.Proofs.Worlds
import Loom.Proofs.Importing
import Loom.Proofs.Precedence
import Loom.Proofs.Layout
import Loom.Proofs.Interpolation
import Loom.Proofs.Nest
import Loom.Proofs.Unfolding
import Loom.Proofs.PropertyOrder
import Loom.Proofs.HostForm
import Loom.Proofs.HostForm.RoundTrip
import Loom.Proofs.Seen
import Loom.Proofs.Confinement
import Loom.Proofs.Visiting
import Loom.Proofs.Ordering
import Loom.Proofs.Counting
import Loom.Proofs.OrderedHash
import Loom.Proofs.Compound
import Loom.Proofs.Assignment
import Loom.Proofs.Atomic
import Loom.Proofs.Reuse
import Loom.Proofs.Receiver
import Loom.Proofs.Quoting
import Loom.Proofs.Relexing
import Loom.Proofs.Shifting.Nested
import Loom.Proofs.Progress
import Loom.Proofs.Characters
import Loom.Proofs.EventList
import Loom.Proofs.OptionOrder
import Loom.Proofs.Dialogue
