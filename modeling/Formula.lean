import Formula.Main
import Formula.Proofs.CommandLine
import Formula.Proofs.Expression.Bounds
import Formula.Proofs.Expression.Invocation
import Formula.Proofs.Grammar.Signs
import Formula.Proofs.NameTable.History
import Formula.Proofs.Number.Clamping
import Formula.Proofs.Outline.Layout
import Formula.Proofs.Outline.Restored
import Formula.Proofs.Parser.Brackets
import Formula.Proofs.Parser.Elements
import Formula.Proofs.Parser.Endless
import Formula.Proofs.Parser.Expansions
import Formula.Proofs.Parser.Numbering
import Formula.Proofs.Parser.Shape
import Formula.Proofs.Parser.Twins
import Formula.Proofs.Placeholder.Index
import Formula.Proofs.Tree.Renumber
import Formula.Proofs.Tree.RoundTrip
import Formula.Proofs.Tree.Substitution
import Formula.Proofs.VariableTable.Handles
import Formula.Proofs.Vocabulary.Counting
import Formula.Proofs.Vocabulary.Order
import Formula.Proofs.Vocabulary.Unrelated
