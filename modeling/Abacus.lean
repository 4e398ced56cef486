import Abacus.Main
import Abacus.Proofs.Grammar
import Abacus.Proofs.Reading
import Abacus.Proofs.Climbing
import Abacus.Proofs.Decoding
import Abacus.Proofs.Execution
import Abacus.Proofs.Numeral
import Abacus.Proofs.Emission
import Abacus.Proofs.WellFormed
import Abacus.Proofs.FirstComplaint
import Abacus.Proofs.Acceptance
import Abacus.Proofs.Preservation
import Abacus.Proofs.Relocation
import Abacus.Proofs.RunLog
import Abacus.Proofs.LayoutIndependence
import Abacus.Proofs.Appending
import Abacus.Proofs.Reports
import Abacus.Proofs.Gap
import Abacus.Proofs.Munching
import Abacus.Proofs.Spelling
import Abacus.Proofs.Printing
import Abacus.Proofs.Tiling
import Abacus.Proofs.LongestMatch
import Abacus.Proofs.StackNeed
import Abacus.Proofs.StepFaults
import Abacus.Proofs.ValueIndependence
import Abacus.Proofs.ListingPartition
import Abacus.Proofs.PositionOrder
import Abacus.Proofs.Remarks
import Abacus.Proofs.TokenLog
import Abacus.Proofs.Styling
import Abacus.Proofs.Decompilation
import Abacus.Proofs.Rendering
import Abacus.Proofs.Parentheses
import Abacus.Proofs.LimitDiagnostics
import Abacus.Proofs.ConstantOverflow
import Abacus.Proofs.CallDepth
import Abacus.Proofs.BoundedReading
import Abacus.Proofs.LineComposition
import Abacus.Proofs.Respacing
import Abacus.Proofs.RolesPlayed
import Abacus.Proofs.ScannerCalls
import Abacus.Proofs.ListingText
import Abacus.Proofs.NoticeText
import Abacus.Proofs.WaitingOperands
import Abacus.Proofs.OperandEffect
