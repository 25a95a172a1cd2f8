import Abacus.Main
import Abacus.Proofs.Lowering
import Abacus.Proofs.Sweep
import Abacus.Proofs.Rescan
import Abacus.Proofs.Forest
import Abacus.Proofs.SpliceLoop
import Abacus.Proofs.Lexing
import Abacus.Proofs.SingleAssignment
import Abacus.Proofs.Grammar
import Abacus.Proofs.Alternation
import Abacus.Proofs.Acceptance
import Abacus.Proofs.Precedence
import Abacus.Proofs.Meaning
import Abacus.Proofs.Simulation
import Abacus.Proofs.Preservation
import Abacus.Proofs.Increment
import Abacus.Proofs.Convention
import Abacus.Proofs.Ledger
import Abacus.Proofs.Readability
import Abacus.Proofs.Diagnosis
import Abacus.Proofs.Joining
import Abacus.Proofs.Continuation
import Abacus.Proofs.Initialisation
import Abacus.Proofs.Correspondence
import Abacus.Proofs.Options
import Abacus.Proofs.Writing
import Abacus.Proofs.Effects
import Abacus.Proofs.Spacing
import Abacus.Proofs.Spelling
import Abacus.Proofs.Unmatched
import Abacus.Proofs.Renaming
import Abacus.Proofs.Elimination
import Abacus.Proofs.Redundancy
import Abacus.Proofs.Rules
import Abacus.Proofs.Parsing
import Abacus.Proofs.Endings
import Abacus.Proofs.Gluing
import Abacus.Proofs.Extension
import Abacus.Proofs.Tracing
import Abacus.Proofs.Respelling
import Abacus.Proofs.Literals
import Abacus.Proofs.Chains
import Abacus.Proofs.Positions
