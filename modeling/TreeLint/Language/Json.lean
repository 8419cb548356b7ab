/-!
# JSON

JSON values: objects, arrays, strings, numbers and the three words.
-/

namespace TreeLint

namespace Language

def jsonLines : List String := [
  "",
  "(grammar json",
  "  (token STRING \"\\\"(?:[^\\\"\\\\\\\\]|\\\\\\\\.)*\\\"\")",
  "  (token NUMBER \"-?(?:0|[1-9][0-9]*)(?:\\\\.[0-9]+)?(?:[eE][+-]?[0-9]+)?\")",
  "",
  "  (rule value :transparent",
  "    object array STRING NUMBER \"true\" \"false\" \"null\")",
  "  (rule object (\"\x7b\" (? member (* \",\" member)) \"\x7d\"))",
  "  (rule member (STRING \":\" value))",
  "  (rule array (\"[\" (? value (* \",\" value)) \"]\")))",
  ""]

end Language

end TreeLint
