/-!
# Sums of numbers

Sums of whole numbers, deliberately ambiguous: an expression is a number or two expressions with a plus between them.
-/

namespace TreeLint

namespace Language

def calculatorLines : List String := [
  "",
  "(grammar calc",
  "  (token NUMBER \"[0-9]+\")",
  "  (rule expr",
  "    NUMBER",
  "    (expr \"+\" expr)))",
  ""]

end Language

end TreeLint
