import OnePage.Main
import OnePage.Tree.Builder
import OnePage.Tree.Numbering
import OnePage.Proofs.Encoding
import OnePage.Proofs.Running
import OnePage.Proofs.Layout
import OnePage.Proofs.Regions
import OnePage.Proofs.Linking
import OnePage.Proofs.Flow
import OnePage.Proofs.Growth
import OnePage.Proofs.Pieces
import OnePage.Proofs.Steps
import OnePage.Proofs.StatementPieces
import OnePage.Proofs.Safety
import OnePage.Proofs.Grammar
import OnePage.Proofs.Phrase
import OnePage.Proofs.Parsing
import OnePage.Proofs.Acceptance
import OnePage.Proofs.Spelling
import OnePage.Proofs.Typing
import OnePage.Proofs.Scoping
import OnePage.Proofs.Lowering
import OnePage.Proofs.WellTyped
import OnePage.Proofs.Readiness
import OnePage.Proofs.Shielding
import OnePage.Proofs.Interpreter
import OnePage.Proofs.Meaning
import OnePage.Proofs.Executing
import OnePage.Proofs.Evaluating
import OnePage.Proofs.Printing
import OnePage.Proofs.Mirroring
import OnePage.Proofs.Simulation
import OnePage.Proofs.Correctness
import OnePage.Proofs.Diagnosis
import OnePage.Proofs.Fitting
import OnePage.Proofs.Checking
import OnePage.Proofs.RoundTrip
import OnePage.Proofs.Spacing
import OnePage.Proofs.Reporting
import OnePage.Proofs.Occurrence
import OnePage.Proofs.Enclosure
import OnePage.Proofs.Opening
import OnePage.Proofs.Resolution
import OnePage.Proofs.Renaming.Alike
import OnePage.Proofs.Renaming.Parsing
import OnePage.Proofs.Renaming.Lowering
import OnePage.Proofs.Renaming.Drafting
import OnePage.Proofs.Renaming
import OnePage.Proofs.Stopping
import OnePage.Proofs.Calling
import OnePage.Proofs.Tiling
import OnePage.Proofs.Landing
import OnePage.Proofs.Computing
import OnePage.Proofs.Filling
import OnePage.Proofs.Interning
import OnePage.Proofs.Respacing
import OnePage.Proofs.Inference
import OnePage.Proofs.Advancing
import OnePage.Proofs.Halting
import OnePage.Proofs.Tallying
import OnePage.Proofs.Usage
import OnePage.Proofs.Warnings
import OnePage.Proofs.Descent
import OnePage.Proofs.Repetition
import OnePage.Proofs.Arena
import OnePage.Proofs.Limits
import OnePage.Proofs.Preorder
import OnePage.Proofs.Outlining
import OnePage.Proofs.Nesting
import OnePage.Proofs.Transcription
import OnePage.Proofs.Settling
import OnePage.Proofs.Conversion
import OnePage.Proofs.Restoring
import OnePage.Proofs.Procedures
import OnePage.Proofs.Recursion
