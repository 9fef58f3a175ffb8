import EcmaScript.Options.Json
import EcmaScript.Hooks.Recording
import EcmaScript.Parser
import EcmaScript.Tree.Json
import EcmaScript.Proofs.Acceptance
import EcmaScript.Proofs.Brackets
import EcmaScript.Proofs.ClassScope.Resolution
import EcmaScript.Proofs.ClassScope.Nesting
import EcmaScript.Proofs.Traversal
import EcmaScript.Proofs.Context
import EcmaScript.Proofs.LoopHeads
import EcmaScript.Proofs.Conservative
import EcmaScript.Proofs.Termination
import EcmaScript.Proofs.InRange
import EcmaScript.Proofs.WellFormed
import EcmaScript.Proofs.Rests
import EcmaScript.Proofs.Names
import EcmaScript.Proofs.Declarations
import EcmaScript.Proofs.Reading
import EcmaScript.Proofs.Operators.RoundTrip
import EcmaScript.Proofs.Cover.Parameters
import EcmaScript.Proofs.LayoutIndependence
import EcmaScript.Proofs.Literal.String
import EcmaScript.Proofs.Literal.RegExp
import EcmaScript.Proofs.Literal.Number
import EcmaScript.Proofs.Newlines
import EcmaScript.Proofs.Shorthands
import EcmaScript.Proofs.Balance
import EcmaScript.Proofs.Enclosed.Parenthesized
