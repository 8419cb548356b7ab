import TreeLint.Grammar.Printer
import TreeLint.Language
import TreeLint.Proofs.EarliestAlternative
import TreeLint.Proofs.Conformity
import TreeLint.Proofs.TreeReuse
import TreeLint.Proofs.PatternAgreement
import TreeLint.Proofs.LongestPrefix
import TreeLint.Proofs.ExpectedTokens
import TreeLint.Proofs.LeastDivision
import TreeLint.Proofs.AnchorOrder
import TreeLint.Proofs.Alternation
import TreeLint.Proofs.MaximalMunch
import TreeLint.Proofs.Associativity
import TreeLint.Proofs.RuleFindings
import TreeLint.Proofs.RuleLoading
import TreeLint.Proofs.SuppressedItems
import TreeLint.Proofs.WrittenPredicates
import TreeLint.Proofs.ListEquality
import TreeLint.Proofs.WrittenForms
import TreeLint.Proofs.TemplateSegments
import TreeLint.Proofs.ClosedTables
