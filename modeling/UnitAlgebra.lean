import UnitAlgebra.Session
import UnitAlgebra.Proofs.Grammar
import UnitAlgebra.Proofs.Lexeme
import UnitAlgebra.Proofs.Reading
import UnitAlgebra.Proofs.Fraction
import UnitAlgebra.Proofs.Writing
import UnitAlgebra.Proofs.Canonical
import UnitAlgebra.Proofs.Index
import UnitAlgebra.Proofs.Arrangement
import UnitAlgebra.Proofs.Obtainable
import UnitAlgebra.Proofs.Content
import UnitAlgebra.Proofs.Session
import UnitAlgebra.Proofs.Number
import UnitAlgebra.Proofs.Laws
import UnitAlgebra.Proofs.OrderedLaws
import UnitAlgebra.Proofs.Conversion
import UnitAlgebra.Proofs.NumericText
import UnitAlgebra.Proofs.Separation
import UnitAlgebra.Proofs.Joining
import UnitAlgebra.Proofs.Attribution
import UnitAlgebra.Proofs.Decimal
import UnitAlgebra.Proofs.Exponent
import UnitAlgebra.Proofs.Position
import UnitAlgebra.Proofs.Acceptance
import UnitAlgebra.Proofs.Misstep
import UnitAlgebra.Proofs.Fragment
import UnitAlgebra.Proofs.Evaluation
import UnitAlgebra.Proofs.Notation
import UnitAlgebra.Proofs.NumberLaws
import UnitAlgebra.Proofs.SingleTerm
import UnitAlgebra.Proofs.Symbol
import UnitAlgebra.Proofs.Spacing
import UnitAlgebra.Proofs.Power
import UnitAlgebra.Proofs.Rounding
import UnitAlgebra.Proofs.Shortest
import UnitAlgebra.Proofs.Scalar
