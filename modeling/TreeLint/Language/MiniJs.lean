/-!
# A small part of JavaScript

Declarations, functions, conditions, calls, member access and the usual operators of JavaScript. Comments carry
suppressions.
-/

namespace TreeLint

namespace Language

def miniJsLines : List String := [
  "",
  "(grammar minijs",
  "  (token COMMENT \"//[^\\n]*\" :trivia)",
  "  (token BLOCK_COMMENT \"/\\\\*[\\\\s\\\\S]*?\\\\*/\" :trivia)",
  "  (token STRING \"\\\"(?:[^\\\"\\\\\\\\\\n]|\\\\\\\\.)*\\\"|'(?:[^'\\\\\\\\\\n]|\\\\\\\\.)*'\")",
  "  (token NUMBER \"[0-9]+(?:\\\\.[0-9]+)?\")",
  "  (token NAME \"[A-Za-z_$][A-Za-z0-9_$]*\")",
  "",
  "  (rule program (* statement))",
  "  (rule statement :transparent",
  "    var_decl function_decl if_stmt return_stmt block expr_stmt)",
  "  (rule var_decl (decl_kind NAME (? \"=\" expression) \";\"))",
  "  (rule decl_kind :inline \"var\" \"let\" \"const\")",
  "  (rule function_decl (\"function\" NAME \"(\" (? params) \")\" block))",
  "  (rule params (NAME (* \",\" NAME)))",
  "  (rule block (\"\x7b\" (* statement) \"\x7d\"))",
  "  (rule if_stmt (\"if\" \"(\" expression \")\" statement (? \"else\" statement)))",
  "  (rule return_stmt (\"return\" (? expression) \";\"))",
  "  (rule expr_stmt (expression \";\"))",
  "",
  "  (rule expression :transparent assignment comparison)",
  "  (rule assignment (postfix \"=\" expression :right))",
  "  (rule comparison :transparent",
  "    additive",
  "    (comparison \"==\" additive) (comparison \"!=\" additive)",
  "    (comparison \"===\" additive) (comparison \"!==\" additive)",
  "    (comparison \"<\" additive) (comparison \">\" additive))",
  "  (rule additive :transparent",
  "    multiplicative",
  "    (additive \"+\" multiplicative) (additive \"-\" multiplicative))",
  "  (rule multiplicative :transparent",
  "    unary",
  "    (multiplicative \"*\" unary) (multiplicative \"/\" unary))",
  "  (rule unary :transparent postfix (\"!\" unary) (\"-\" unary))",
  "  (rule postfix :transparent primary call member)",
  "  (rule call (postfix \"(\" (? arguments) \")\"))",
  "  (rule member (postfix \".\" NAME))",
  "  (rule arguments (expression (* \",\" expression)))",
  "  (rule primary :transparent NAME STRING NUMBER \"true\" \"false\" \"null\" paren)",
  "  (rule paren (\"(\" expression \")\"))",
  "",
  "  (suppress (comments COMMENT BLOCK_COMMENT)))",
  ""]

end Language

end TreeLint
