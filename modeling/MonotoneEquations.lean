import MonotoneEquations.Domain.Bool
import MonotoneEquations.Main
import MonotoneEquations.Proofs.Confluence
import MonotoneEquations.Proofs.Evaluation
import MonotoneEquations.Proofs.Refusal
import MonotoneEquations.Proofs.Quiescence
import MonotoneEquations.Proofs.Completeness
import MonotoneEquations.Proofs.Locality
import MonotoneEquations.Proofs.Polarity
import MonotoneEquations.Proofs.Revision
import MonotoneEquations.Proofs.Monotonicity
import MonotoneEquations.Proofs.RenamedRun
import MonotoneEquations.Proofs.Rendering
import MonotoneEquations.Proofs.RoundTrip
import MonotoneEquations.Proofs.Accounting
import MonotoneEquations.Proofs.Rewording
import MonotoneEquations.Proofs.FaithfulLog
import MonotoneEquations.Proofs.PrintedMeaning
import MonotoneEquations.Proofs.Lifetime
import MonotoneEquations.Proofs.ReadMeaning
import MonotoneEquations.Proofs.ListedKeys
import MonotoneEquations.Source.Parser
import MonotoneEquations.Proofs.BoundedLattice
import MonotoneEquations.Proofs.JoinAlgebra
import MonotoneEquations.Proofs.ParserBounds
