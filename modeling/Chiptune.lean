import Chiptune.Bytes.Label
import Chiptune.Main
import Chiptune.Proofs.RoundTrip
import Chiptune.Proofs.Ending
import Chiptune.Proofs.Grammar
import Chiptune.Proofs.Image
import Chiptune.Proofs.Isolation
import Chiptune.Proofs.Beats
import Chiptune.Proofs.RowLength
import Chiptune.Proofs.LoopCap
import Chiptune.Proofs.Normal
import Chiptune.Proofs.Conversion
import Chiptune.Proofs.Length
import Chiptune.Proofs.Encore
import Chiptune.Proofs.Restart
import Chiptune.Proofs.Continuation
import Chiptune.Proofs.Ranges
import Chiptune.Proofs.Regions
import Chiptune.Proofs.Refusals
import Chiptune.Proofs.Windows
import Chiptune.Proofs.Offsets
import Chiptune.Proofs.Places
import Chiptune.Proofs.Registers
import Chiptune.Proofs.Rounding
import Chiptune.Proofs.Drift
import Chiptune.Proofs.Truncation
import Chiptune.Proofs.Defects
import Chiptune.Proofs.Rescale
import Chiptune.Proofs.Verdict
import Chiptune.Proofs.Walks
import Chiptune.Proofs.Glides
import Chiptune.Proofs.Renditions
import Chiptune.Proofs.Outcomes
import Chiptune.Proofs.Slides
import Chiptune.Proofs.Sweeps
import Chiptune.Proofs.Patterns
import Chiptune.Proofs.Approach
import Chiptune.Proofs.Smoothing
import Chiptune.Proofs.Chords
