import Patchwork.Main
import Patchwork.Tool.Workspace
import Patchwork.Proofs.Selection
import Patchwork.Proofs.SlotSafety
import Patchwork.Proofs.Unclosed
import Patchwork.Proofs.BalancedFlow
import Patchwork.Proofs.LineComments
import Patchwork.Proofs.RegionState
import Patchwork.Proofs.TextDocuments
import Patchwork.Proofs.DocumentPlaces
import Patchwork.Proofs.Progress
import Patchwork.Proofs.Nesting
import Patchwork.Proofs.Literals
import Patchwork.Proofs.Conservative
import Patchwork.Proofs.AtRules
import Patchwork.Proofs.TextSeams
import Patchwork.Proofs.Returning
import Patchwork.Proofs.FormulaGrammar
import Patchwork.Proofs.CalcUnits
import Patchwork.Proofs.RenderedArithmetic
import Patchwork.Proofs.SelectorLists
import Patchwork.Proofs.EmptyRules
import Patchwork.Proofs.InlineBodies
import Patchwork.Proofs.OpenScopes
import Patchwork.Proofs.EscapedText
import Patchwork.Proofs.Operators
import Patchwork.Proofs.Marks
import Patchwork.Proofs.FixtureFiles
import Patchwork.Proofs.Templates
import Patchwork.Proofs.Inheritance
import Patchwork.Proofs.Expressions
