import TreeLint.Span
import TreeLint.Text.Glyph

/-!
# Diagnostics

A diagnostic is one thing to tell the user: a finding of a rule, a problem of the source, a rule that cannot be run, or
a predicate that failed.

* `Diagnostic.sort` puts diagnostics in order: by file, then by start, then by rule; others keep their order.
* `Diagnostic.line` and `Diagnostic.json` write one, as a line of text and as a JSON object.
-/

namespace TreeLint

def Diagnostic.lintKind : String := "lint"

def Diagnostic.syntaxErrorKind : String := "syntax-error"

def Diagnostic.configErrorKind : String := "config-error"

def Diagnostic.predicateWarningKind : String := "predicate-warning"

structure Diagnostic where
  rule : String
  severity : String
  message : Text
  span : Span
  secondary : List Span := []
  kind : String := Diagnostic.lintKind
  code : String := ""
  deriving DecidableEq, Inhabited, Repr

namespace Diagnostic

def precedes (a b : Diagnostic) : Bool :=
  a.span.file < b.span.file || (a.span.file == b.span.file &&
    (a.span.start < b.span.start || (a.span.start == b.span.start && a.rule ≤ b.rule)))

def sort (diagnostics : List Diagnostic) : List Diagnostic :=
  diagnostics.mergeSort precedes

def line (diagnostic : Diagnostic) : String :=
  diagnostic.span.text ++ ": " ++ diagnostic.severity ++ ": " ++ diagnostic.message.display ++ " [" ++
    diagnostic.rule ++ "]"

def jsonUnit (unit : Nat) : String :=
  "\\u" ++ Text.hex 4 unit

/-- A code point in a JSON string: control characters and all beyond ASCII are written by number. -/
def jsonCode (code : Nat) : String :=
  if code == 0x22 then "\\\""
  else if code == 0x5C then "\\\\"
  else if code == 0x0A then "\\n"
  else if code == 0x0D then "\\r"
  else if code == 0x09 then "\\t"
  else if code == 0x08 then "\\b"
  else if code == 0x0C then "\\f"
  else if 0x20 ≤ code && code ≤ 0x7E then (Char.ofNat code).toString
  else if code < 0x10000 then jsonUnit code
  else jsonUnit (0xD800 + (code - 0x10000) / 0x400) ++ jsonUnit (0xDC00 + (code - 0x10000) % 0x400)

def jsonText (text : Text) : String :=
  "\"" ++ String.join (text.codes.map jsonCode) ++ "\""

def jsonString (s : String) : String :=
  jsonText (Text.ofString s)

def jsonPlace (span : Span) : String :=
  "[" ++ ", ".intercalate ([span.start, span.stop, span.line, span.column].map toString) ++ "]"

def json (diagnostic : Diagnostic) : String :=
  let span := diagnostic.span
  let fields := [("rule", jsonString diagnostic.rule), ("severity", jsonString diagnostic.severity),
    ("message", jsonText diagnostic.message), ("file", jsonString span.file), ("line", toString span.line),
    ("column", toString span.column), ("start", toString span.start), ("end", toString span.stop),
    ("kind", jsonString diagnostic.kind)] ++
    (if diagnostic.code.isEmpty then [] else [("code", jsonString diagnostic.code)]) ++
    (if diagnostic.secondary.isEmpty then []
      else [("secondary", "[" ++ ", ".intercalate (diagnostic.secondary.map jsonPlace) ++ "]")])
  "\x7b" ++ ", ".intercalate (fields.map fun (name, value) => jsonString name ++ ": " ++ value) ++ "\x7d"

end Diagnostic

end TreeLint
