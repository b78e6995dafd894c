import StreamStats.Check
import StreamStats.Code.Text
import StreamStats.Compiler
import StreamStats.Proofs.Appended
import StreamStats.Proofs.Components
import StreamStats.Proofs.Declared
import StreamStats.Proofs.Folded
import StreamStats.Proofs.Inlined
import StreamStats.Proofs.Insertions
import StreamStats.Proofs.Lifecycle
import StreamStats.Proofs.Lowered
import StreamStats.Proofs.Packed
import StreamStats.Proofs.Predictions
import StreamStats.Proofs.Progressions
import StreamStats.Proofs.Reached
import StreamStats.Proofs.Recalled
import StreamStats.Proofs.Refused
import StreamStats.Proofs.Renamed
import StreamStats.Proofs.Repeated
import StreamStats.Proofs.Retained
import StreamStats.Proofs.Rewriting
import StreamStats.Proofs.Rounds
import StreamStats.Proofs.Safety
import StreamStats.Proofs.Swept
import StreamStats.Proofs.Tables
import StreamStats.Proofs.Unread
import StreamStats.Proofs.Wholeness
import StreamStats.Proofs.Widened
import StreamStats.Settings.Load
import StreamStats.Simulator
