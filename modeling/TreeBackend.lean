import TreeBackend.Main
import TreeBackend.Source.Bracketed
import TreeBackend.Proofs.Assignments
import TreeBackend.Proofs.Renaming
import TreeBackend.Proofs.Flattening.Canonical
import TreeBackend.Proofs.Flattening.Preservation
import TreeBackend.Proofs.Acceptance
import TreeBackend.Proofs.Safety
import TreeBackend.Proofs.Frame.Growing
import TreeBackend.Proofs.Frame.Regions
import TreeBackend.Proofs.Calls.Links
import TreeBackend.Proofs.Calls.Overflow
import TreeBackend.Proofs.Flattening.Events
import TreeBackend.Proofs.Lowering.Events
import TreeBackend.Proofs.Lowering.Generator
import TreeBackend.Proofs.Termination
import TreeBackend.Proofs.LabelHygiene
import TreeBackend.Proofs.Machine.Agreement
import TreeBackend.Proofs.Machine.Scanning
import TreeBackend.Proofs.OutgoingArguments
import TreeBackend.Proofs.FrameLevels
import TreeBackend.Proofs.Correctness
import TreeBackend.Proofs.Machine.StaticLayout
import TreeBackend.Proofs.Machine.Maintaining
import TreeBackend.Proofs.Machine.Steady
import TreeBackend.Proofs.Machine.OutputIndependence
import TreeBackend.Proofs.ChunkOrigins
import TreeBackend.Proofs.Flattening.Failures
import TreeBackend.Proofs.ArgumentPassing
import TreeBackend.Proofs.Flattening.LinearUse
import TreeBackend.Proofs.Subscripts
import TreeBackend.Proofs.Lowering.Counting
import TreeBackend.Proofs.Machine.Progress
import TreeBackend.Proofs.Counting.Cells
import TreeBackend.Proofs.Counting.Beginning
import TreeBackend.Proofs.Counting.Rounds
import TreeBackend.Proofs.CountingLoops
import TreeBackend.Proofs.ConstructedPrograms
import TreeBackend.Proofs.IR.Outlines
import TreeBackend.Proofs.Source.TypeTexts
