/-!
# A part of Python

Simple statements, the headers of compound statements, and expressions with their precedence. Indentation is not
tracked: the lines after a header are its siblings. Newlines end statements, except inside brackets, after a comma and
after a backslash. Comments carry suppressions.
-/

namespace TreeLint

namespace Language

def pythonLines : List String := [
  "",
  "(grammar python",
  "  (token COMMENT \"#[^\\\\r\\\\n]*\" :trivia)",
  "  (token CONTINUATION \"\\\\\\\\\\\\r?\\\\n\" :trivia)",
  "  (token NEWLINE \"\\\\r?\\\\n\")",
  "  (token STRING \"[rRbBuUfF]\x7b0,2\x7d(?:'''[\\\\s\\\\S]*?'''|\\\"\\\"\\\"[\\\\s\\\\S]*?\\\"\\\"\\\"|'(?:[^'\\\\\\\\\\\\r\\\\n]|\\\\\\\\.)*'|\\\"(?:[^\\\"\\\\\\\\\\\\r\\\\n]|\\\\\\\\.)*\\\")\")",
  "  (token NUMBER \"0[xXoObB][0-9a-fA-F_]+|(?:[0-9][0-9_]*(?:\\\\.[0-9_]*)?|\\\\.[0-9][0-9_]*)(?:[eE][+-]?[0-9_]+)?[jJ]?\")",
  "  (token NAME \"[^\\\\W\\\\d]\\\\w*\")",
  "",
  "  (rule module ((* line) (? statement)))",
  "  (rule line :inline (statement NEWLINE) NEWLINE)",
  "  (rule statement :inline simple_stmts compound_stmt)",
  "  (rule simple_stmts :inline (small_stmt (* \";\" small_stmt) (? \";\")))",
  "",
  "  (rule small_stmt :transparent",
  "    expr_stmt assign_stmt ann_assign_stmt aug_assign_stmt return_stmt",
  "    pass_stmt break_stmt continue_stmt raise_stmt yield_stmt",
  "    import_stmt from_import_stmt global_stmt assert_stmt del_stmt)",
  "  (rule expr_stmt (expression_list))",
  "  (rule assign_stmt (expression_list \"=\" (* expression_list \"=\") expression_list))",
  "  (rule ann_assign_stmt (expression \":\" expression (? \"=\" expression_list)))",
  "  (rule aug_assign_stmt (expression aug_op expression_list))",
  "  (rule aug_op :inline",
  "    \"+=\" \"-=\" \"*=\" \"/=\" \"//=\" \"%=\" \"**=\" \"@=\" \"&=\" \"|=\" \"^=\" \"<<=\" \">>=\")",
  "  (rule return_stmt (\"return\" (? expression_list)))",
  "  (rule pass_stmt (\"pass\"))",
  "  (rule break_stmt (\"break\"))",
  "  (rule continue_stmt (\"continue\"))",
  "  (rule raise_stmt (\"raise\" (? expression (? \"from\" expression))))",
  "  (rule yield_stmt (\"yield\" (? expression_list)) (\"yield\" \"from\" expression))",
  "  (rule import_stmt (\"import\" dotted_as_name (* \",\" dotted_as_name)))",
  "  (rule dotted_as_name :transparent dotted_name (dotted_name \"as\" NAME))",
  "  (rule dotted_name :transparent (NAME (* \".\" NAME)))",
  "  (rule from_import_stmt (\"from\" (* \".\") (? dotted_name) \"import\" import_targets))",
  "  (rule import_targets :inline \"*\" (\"(\" import_names (? \",\") \")\") import_names)",
  "  (rule import_names :inline (import_name (* \",\" import_name)))",
  "  (rule import_name :transparent NAME (NAME \"as\" NAME))",
  "  (rule global_stmt (\"global\" NAME (* \",\" NAME)) (\"nonlocal\" NAME (* \",\" NAME)))",
  "  (rule assert_stmt (\"assert\" expression (? \",\" expression)))",
  "  (rule del_stmt (\"del\" expression_list))",
  "",
  "  (rule compound_stmt :transparent",
  "    if_stmt elif_clause else_clause while_stmt for_stmt try_stmt",
  "    except_clause finally_clause with_stmt def_stmt class_stmt decorator)",
  "  (rule if_stmt (\"if\" expression \":\" (? simple_stmts)))",
  "  (rule elif_clause (\"elif\" expression \":\" (? simple_stmts)))",
  "  (rule else_clause (\"else\" \":\" (? simple_stmts)))",
  "  (rule while_stmt (\"while\" expression \":\" (? simple_stmts)))",
  "  (rule for_stmt (\"for\" targets \"in\" expression_list \":\" (? simple_stmts)))",
  "  (rule try_stmt (\"try\" \":\" (? simple_stmts)))",
  "  (rule except_clause (\"except\" (? expression (? \"as\" NAME)) \":\" (? simple_stmts)))",
  "  (rule finally_clause (\"finally\" \":\" (? simple_stmts)))",
  "  (rule with_stmt (\"with\" with_item (* \",\" with_item) \":\" (? simple_stmts)))",
  "  (rule with_item :transparent expression (expression \"as\" primary))",
  "  (rule def_stmt (\"def\" NAME \"(\" (? params) \")\" (? \"->\" expression) \":\" (? simple_stmts)))",
  "  (rule class_stmt (\"class\" NAME (? \"(\" (? arguments) \")\") \":\" (? simple_stmts)))",
  "  (rule decorator (\"@\" expression))",
  "  (rule params (param (* \",\" param) (? \",\")))",
  "  (rule param :transparent",
  "    NAME (NAME \"=\" expression) (NAME \":\" expression) (NAME \":\" expression \"=\" expression)",
  "    (\"*\" (? NAME)) (\"**\" NAME) \"/\")",
  "",
  "  (rule expression_list :inline (expression (* \",\" expression) (? \",\")))",
  "  (rule targets :inline (primary (* \",\" primary) (? \",\")))",
  "  (rule expression :transparent conditional lambda_expr)",
  "  (rule conditional :transparent disjunction (disjunction \"if\" disjunction \"else\" expression))",
  "  (rule lambda_expr (\"lambda\" (? params) \":\" expression))",
  "  (rule disjunction :transparent conjunction (disjunction \"or\" conjunction))",
  "  (rule conjunction :transparent inversion (conjunction \"and\" inversion))",
  "  (rule inversion :transparent comparison (\"not\" inversion))",
  "  (rule comparison :transparent bitor (comparison comp_op bitor))",
  "  (rule comp_op :inline \"==\" \"!=\" \"<\" \">\" \"<=\" \">=\" \"in\" \"is\" (\"not\" \"in\") (\"is\" \"not\"))",
  "  (rule bitor :transparent bitxor (bitor \"|\" bitxor))",
  "  (rule bitxor :transparent bitand (bitxor \"^\" bitand))",
  "  (rule bitand :transparent shift (bitand \"&\" shift))",
  "  (rule shift :transparent sum (shift \"<<\" sum) (shift \">>\" sum))",
  "  (rule sum :transparent term (sum \"+\" term) (sum \"-\" term))",
  "  (rule term :transparent",
  "    factor",
  "    (term \"*\" factor) (term \"/\" factor) (term \"//\" factor) (term \"%\" factor) (term \"@\" factor))",
  "  (rule factor :transparent power (\"-\" factor) (\"+\" factor) (\"~\" factor))",
  "  (rule power :transparent primary (primary \"**\" factor))",
  "",
  "  (rule primary :transparent atom call attribute subscript)",
  "  (rule call",
  "    (primary \"(\" (* NEWLINE) (? arguments (* NEWLINE)) \")\")",
  "    (primary \"(\" expression comprehension \")\"))",
  "  (rule attribute (primary \".\" NAME))",
  "  (rule subscript (primary \"[\" slices \"]\"))",
  "  (rule slices :inline (slice (* \",\" slice) (? \",\")))",
  "  (rule slice :transparent expression ((? expression) \":\" (? expression) (? \":\" (? expression))))",
  "  (rule arguments :inline (argument (* sep argument) (? \",\")))",
  "  (rule argument :transparent expression keyword_arg star_arg)",
  "  (rule keyword_arg (NAME \"=\" expression))",
  "  (rule star_arg (\"*\" expression) (\"**\" expression))",
  "  (rule sep :inline (\",\" (* NEWLINE)))",
  "",
  "  (rule atom :transparent",
  "    NAME NUMBER strings \"None\" \"True\" \"False\" \"...\"",
  "    paren list_display dict_display set_display)",
  "  (rule strings :transparent (STRING (* STRING)))",
  "  (rule paren",
  "    (\"(\" (* NEWLINE) (? items (* NEWLINE)) \")\")",
  "    (\"(\" expression comprehension \")\"))",
  "  (rule list_display",
  "    (\"[\" (* NEWLINE) (? items (* NEWLINE)) \"]\")",
  "    (\"[\" expression comprehension \"]\"))",
  "  (rule dict_display",
  "    (\"\x7b\" (* NEWLINE) (? dict_items (* NEWLINE)) \"\x7d\")",
  "    (\"\x7b\" dict_item comprehension \"\x7d\"))",
  "  (rule set_display (\"\x7b\" (* NEWLINE) items (* NEWLINE) \"\x7d\"))",
  "  (rule items :inline (expression (* sep expression) (? \",\")))",
  "  (rule dict_items :inline (dict_item (* sep dict_item) (? \",\")))",
  "  (rule dict_item (expression \":\" expression) (\"**\" bitor))",
  "  (rule comprehension (\"for\" targets \"in\" disjunction (* \"if\" disjunction) (? comprehension)))",
  "",
  "  (suppress (comments COMMENT)))",
  ""]

end Language

end TreeLint
