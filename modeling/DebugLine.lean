import DebugLine.Machine.Lookup
import DebugLine.Assembly
import DebugLine.Settings.Sources
import DebugLine.Proofs.Acceptance
import DebugLine.Proofs.FirstFailure
import DebugLine.Proofs.Isolation
import DebugLine.Proofs.Places
import DebugLine.Proofs.Numerals
import DebugLine.Proofs.Sequences
import DebugLine.Proofs.Utf8
import DebugLine.Proofs.EntryLayout
import DebugLine.Proofs.HeaderFields
import DebugLine.Proofs.HeaderLayout
import DebugLine.Proofs.Assembled
import DebugLine.Proofs.RoundTrip
import DebugLine.Proofs.Checked.Clones
import DebugLine.Proofs.RowMeaning
import DebugLine.Proofs.Concatenation
import DebugLine.Proofs.Transparency
import DebugLine.Proofs.AbsolutePaths
import DebugLine.Proofs.StartingOver
import DebugLine.Proofs.WellFormed
import DebugLine.Proofs.Termination
import DebugLine.Proofs.HeaderOverlap
import DebugLine.Proofs.CarriedPositions
import DebugLine.Proofs.ResolvedRows
import DebugLine.Proofs.FailingSteps
import DebugLine.Proofs.Advance
import DebugLine.Proofs.Abbreviations
import DebugLine.Proofs.FallingAddresses
import DebugLine.Proofs.LengthCheck
import DebugLine.Proofs.EntryReading
import DebugLine.Proofs.NormalPaths
import DebugLine.Proofs.TableHistory
import DebugLine.Proofs.NestedDirectories
import DebugLine.Proofs.GroupRuns
import DebugLine.Proofs.NumberReading
import DebugLine.Proofs.ShortestNumerals
import DebugLine.Proofs.CursorRequests
import DebugLine.Proofs.DeclaredOperands
