import Vorn.Main
import Vorn.Proofs.Arithmetic
import Vorn.Proofs.Batch
import Vorn.Proofs.BoundNames
import Vorn.Proofs.CallbackForms
import Vorn.Proofs.Completeness
import Vorn.Proofs.CompoundAssignment
import Vorn.Proofs.Constants
import Vorn.Proofs.CyclicValues
import Vorn.Proofs.Equality
import Vorn.Proofs.ErrorOrder
import Vorn.Proofs.FaultPlaces
import Vorn.Proofs.FiniteMap
import Vorn.Proofs.FirstFault
import Vorn.Proofs.FloatText
import Vorn.Proofs.InsertionOrder
import Vorn.Proofs.IntegerRange
import Vorn.Proofs.IntegerSource
import Vorn.Proofs.IntegerText
import Vorn.Proofs.Layout
import Vorn.Proofs.Lookup
import Vorn.Proofs.Mean
import Vorn.Proofs.Mutation
import Vorn.Proofs.Precedence
import Vorn.Proofs.Redeclaration
import Vorn.Proofs.Returns
import Vorn.Proofs.RoundTrip
import Vorn.Proofs.ScopeChecks
import Vorn.Proofs.SeparateCopies
import Vorn.Proofs.Signals
import Vorn.Proofs.SortedIntegers
import Vorn.Proofs.Spacing
import Vorn.Proofs.Splitting
import Vorn.Proofs.StableText
import Vorn.Proofs.Token.Places
import Vorn.Proofs.Totality
import Vorn.Proofs.Tracing
import Vorn.Proofs.Tree.Reading
