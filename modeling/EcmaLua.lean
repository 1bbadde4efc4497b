import EcmaLua.Main
import EcmaLua.Proofs.DirectEval
import EcmaLua.Proofs.Grammatical
import EcmaLua.Proofs.AllOrNothing
import EcmaLua.Proofs.Discipline
import EcmaLua.Proofs.Execution.Structured
import EcmaLua.Proofs.Meaning.Hoisting
import EcmaLua.Proofs.MarkerComments
import EcmaLua.Proofs.ReadGuard
import EcmaLua.Proofs.Finalization
import EcmaLua.Proofs.ThrownValue
import EcmaLua.Proofs.Reporting
import EcmaLua.Proofs.Capture
import EcmaLua.Proofs.ReportedPlaces
import EcmaLua.Proofs.Separation
import EcmaLua.Proofs.CaseDispatch
import EcmaLua.Proofs.LiteralDecoding
import EcmaLua.Proofs.JumpResolution
import EcmaLua.Proofs.ArgumentElements
import EcmaLua.Proofs.ScopeHints
import EcmaLua.Proofs.NumberSpelling
import EcmaLua.Proofs.LinePositions
import EcmaLua.Proofs.CaretUnderline
import EcmaLua.Proofs.ScopeLaws
import EcmaLua.Proofs.SourceStore
import EcmaLua.Proofs.Surface.Parentheses
import EcmaLua.Proofs.GeneratedNames
