import SymbolicAlgebra.CommandLine.Outcome
import SymbolicAlgebra.Proofs.Grammar.Refusal
import SymbolicAlgebra.Proofs.Printing.Rereading
import SymbolicAlgebra.Proofs.Steady.Idempotence
import SymbolicAlgebra.Proofs.Value.Expansion
import SymbolicAlgebra.Proofs.Value.Homomorphism
import SymbolicAlgebra.Proofs.Value.Parsing
import SymbolicAlgebra.Proofs.Value.Preservation
import SymbolicAlgebra.Proofs.Variables.Alike
import SymbolicAlgebra.Proofs.Variables.Binding
import SymbolicAlgebra.Proofs.Variables.Containment
import SymbolicAlgebra.Proofs.Roundtrip.Recovery
import SymbolicAlgebra.Proofs.Grammar.Lexeme
import SymbolicAlgebra.Proofs.BracketKinds.Matching
import SymbolicAlgebra.Proofs.Staged.Literal
import SymbolicAlgebra.Proofs.Shape.Obtained
import SymbolicAlgebra.Proofs.Shape.Term
import SymbolicAlgebra.Proofs.Shape.Sum
import SymbolicAlgebra.Proofs.Signs.Marking
import SymbolicAlgebra.Proofs.Signs.Opposite
import SymbolicAlgebra.Proofs.Signs.Meaning
import SymbolicAlgebra.Proofs.Lasting.Clone
import SymbolicAlgebra.Proofs.Lasting.Straight
import SymbolicAlgebra.Proofs.Merging.Unlike
import SymbolicAlgebra.Proofs.Certain.Evaluation
import SymbolicAlgebra.Proofs.Certain.Binary64
import SymbolicAlgebra.Proofs.Grammar.Depth
import SymbolicAlgebra.Proofs.Grammar.Numeral
import SymbolicAlgebra.Proofs.Polynomial.Reading
import SymbolicAlgebra.Proofs.Grammar.Separation
import SymbolicAlgebra.Proofs.Variables.Requests
import SymbolicAlgebra.Proofs.Value.LowestTerms
import SymbolicAlgebra.Proofs.Termination.Simplify
