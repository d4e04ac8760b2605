import ColumnAlgebra.Connection
import ColumnAlgebra.Debug.Values
import ColumnAlgebra.FloatKind.Reading
import ColumnAlgebra.HashData
import ColumnAlgebra.Inspection
import ColumnAlgebra.Json.Element
import ColumnAlgebra.NullLiteral
import ColumnAlgebra.Session.Step
import ColumnAlgebra.Proofs.Tabulation
import ColumnAlgebra.Proofs.Spread
import ColumnAlgebra.Proofs.Expression
import ColumnAlgebra.Proofs.FixedInt.Bits
import ColumnAlgebra.Proofs.FixedInt.Exact
import ColumnAlgebra.Proofs.ColumnArithmetic
import ColumnAlgebra.Proofs.Json.StringLiteral
import ColumnAlgebra.Proofs.Json.RoundTrip
import ColumnAlgebra.Proofs.FixedInt.CheckedDivision
import ColumnAlgebra.Proofs.ColumnDivision
import ColumnAlgebra.Proofs.History
import ColumnAlgebra.Proofs.HandleRun
import ColumnAlgebra.Proofs.Json.Grammar
import ColumnAlgebra.Proofs.Json.StringGrammar
import ColumnAlgebra.Proofs.Json.Unambiguous
import ColumnAlgebra.Proofs.Json.Acceptance
import ColumnAlgebra.Proofs.Indexing
import ColumnAlgebra.Proofs.ElementEquality
import ColumnAlgebra.Proofs.ColumnEquality
import ColumnAlgebra.Proofs.Locality
import ColumnAlgebra.Proofs.Padding
import ColumnAlgebra.Proofs.Propagation
import ColumnAlgebra.Proofs.Fusion
import ColumnAlgebra.Proofs.Connectives
import ColumnAlgebra.Proofs.Ordering
import ColumnAlgebra.Proofs.Flattening
import ColumnAlgebra.Proofs.ColumnExpression
import ColumnAlgebra.Proofs.FixedInt.Complement
import ColumnAlgebra.Proofs.ColumnInverse
import ColumnAlgebra.Proofs.ColumnComplement
import ColumnAlgebra.Proofs.ColumnReordering
import ColumnAlgebra.Proofs.NullCount
import ColumnAlgebra.Proofs.DisplayLines
import ColumnAlgebra.Proofs.PrefixFreeHash
import ColumnAlgebra.Proofs.RunLog
