import TreeLint.Number.Reader
import TreeLint.Sexp.Basic
import TreeLint.Text.Quoted

/-!
# Reading S-expressions

Text is cut into tokens, one character at a time, and the tokens are assembled on a stack of open lists. White space is
that of ASCII, `;` starts a comment that ends with the line, and a backslash makes the next character part of an atom or
a string. An atom that reads as a number is one, and any other atom is a symbol.

Besides the forms that the tool accepts, the text may hold quoted forms and lists in square brackets. They are read as
`Datum`s, so that the refusal can name them.
-/

namespace TreeLint

namespace Sexp

inductive Bracket where
  | round
  | square
  deriving DecidableEq, Repr

def Bracket.opening : Bracket → Char
  | round => '('
  | square => '['

def Bracket.closing : Bracket → Char
  | round => ')'
  | square => ']'

/-- A form as read, before quotes and square brackets are refused. -/
inductive Datum where
  | list (bracket : Bracket) (items : List Datum)
  | symbol (name : String)
  | string (value : String)
  | number (value : Number)
  | quoted (datum : Datum)
  deriving Inhabited, Repr

def symbolEscapes : List Char :=
  ['\\', '\'', '`', '"', '(', ')', '[', ']', ' ', ',', '?', ';', '#']

def stringEscapes : List (Char × Char) :=
  [('\\', '\\'), ('"', '"'), ('b', '\x08'), ('f', '\x0c'), ('n', '\n'), ('r', '\r'), ('t', '\t')]

def unescapeSymbol (c : Char) : List Char :=
  if symbolEscapes.contains c then [c] else ['\\', c]

def unescapeString (c : Char) : List Char :=
  match stringEscapes.lookup c with
  | some meant => [meant]
  | none => ['\\', c]

def showInString (c : Char) : List Char :=
  match stringEscapes.find? (·.2 == c) with
  | some (letter, _) => ['\\', letter]
  | none => [c]

def showInSymbol (c : Char) : List Char :=
  if symbolEscapes.contains c then ['\\', c] else [c]

def Datum.show : Datum → String
  | list bracket items => bracket.opening.toString ++ showItems items ++ bracket.closing.toString
  | symbol name => String.ofList (name.toList.flatMap showInSymbol)
  | string value => "\"" ++ String.ofList (value.toList.flatMap showInString) ++ "\""
  | number value => value.text
  | quoted datum => "'" ++ datum.show
where
  showItems : List Datum → String
    | [] => ""
    | [item] => item.show
    | item :: items => item.show ++ " " ++ showItems items

inductive Fault where
  /-- A list is not closed by its own bracket; `got` is what stands there, if anything. -/
  | unclosed (bracket : Bracket) (got : Option Bracket)
  /-- A closing bracket has no list to close; `rest` is the text from it on. -/
  | leftover (rest : String)
  | bareQuote (position : Nat)
  | openString
  | bareEscape
  | unsupported (datum : Datum)
  | notOne (count : Nat)
  deriving Repr

def Fault.message : Fault → String
  | unclosed bracket got =>
    let found := match got with
      | some bracket => quoted bracket.closing.toString
      | none => "None"
    "malformed S-expression: Not enough closing brackets. Expected " ++ quoted bracket.closing.toString ++
      " to be the last letter in the sexp. Got: " ++ found
  | leftover rest =>
    "malformed S-expression: Too many closing brackets. Expected no character left in the sexp. Got: " ++ quoted rest
  | bareQuote position =>
    "malformed S-expression: No s-exp is found after an apostrophe at position " ++ toString position
  | openString => "malformed S-expression: 'NoneType' object has no attribute 'start'"
  | bareEscape => "malformed S-expression: string index out of range"
  | unsupported datum => "unsupported S-expression syntax " ++ datum.show
  | notOne count => "expected one S-expression, found " ++ toString count

/-- A token. The faults inside strings and atoms travel as tokens, so that they are met in the order of the text. -/
inductive Token where
  | atom (chars : List Char)
  | string (chars : List Char)
  | opening (bracket : Bracket)
  /-- A closing bracket; `rest` is the text from it on. -/
  | closing (bracket : Bracket) (rest : List Char)
  | quote (position : Nat)
  | broken (fault : Fault)
  deriving Repr

/-- What the scanner is in the middle of; the characters read so far are kept in reverse. -/
inductive Mode where
  | between
  | comment
  | atom (read : List Char)
  | atomEscape (read : List Char)
  | string (read : List Char)
  | stringEscape (read : List Char)
  deriving Repr

def isSpace (c : Char) : Bool :=
  c == ' ' || (9 ≤ c.toNat && c.toNat ≤ 13)

def endsAtom (c : Char) : Bool :=
  isSpace c || c == '(' || c == ')' || c == '[' || c == ']' || c == '"' || c == ';'

/-- The tokens that a character completes between forms, and the mode after it; `rest` is the text from it on. -/
def startAt (position : Nat) (c : Char) (rest : List Char) : List Token × Mode :=
  if isSpace c then ([], .between)
  else if c == '"' then ([], .string [])
  else if c == '(' then ([.opening .round], .between)
  else if c == '[' then ([.opening .square], .between)
  else if c == ')' then ([.closing .round rest], .between)
  else if c == ']' then ([.closing .square rest], .between)
  else if c == '\'' then ([.quote position], .between)
  else if c == ';' then ([], .comment)
  else if c == '\\' then ([], .atomEscape [])
  else ([], .atom [c])

def scan (position : Nat) : Mode → List Char → List Token
  | .between, [] => []
  | .comment, [] => []
  | .atom read, [] => [.atom read.reverse]
  | .atomEscape _, [] => [.broken .bareEscape]
  | .string _, [] => [.broken .openString]
  | .stringEscape _, [] => [.broken .bareEscape]
  | .between, c :: rest =>
    let (tokens, mode) := startAt position c (c :: rest)
    tokens ++ scan (position + 1) mode rest
  | .comment, c :: rest => scan (position + 1) (if c == '\n' then .between else .comment) rest
  | .atom read, c :: rest =>
    if endsAtom c then
      let (tokens, mode) := startAt position c (c :: rest)
      .atom read.reverse :: (tokens ++ scan (position + 1) mode rest)
    else scan (position + 1) (if c == '\\' then .atomEscape read else .atom (c :: read)) rest
  | .atomEscape read, c :: rest => scan (position + 1) (.atom ((unescapeSymbol c).reverse ++ read)) rest
  | .string read, c :: rest =>
    if c == '"' then .string read.reverse :: scan (position + 1) .between rest
    else scan (position + 1) (if c == '\\' then .stringEscape read else .string (c :: read)) rest
  | .stringEscape read, c :: rest => scan (position + 1) (.string ((unescapeString c).reverse ++ read)) rest

/-- A list that is still open: its bracket, the data read so far in reverse, and the positions of the quotes in front of
the next datum, the innermost first. -/
structure Frame where
  bracket : Bracket
  items : List Datum
  quotes : List Nat
  deriving Repr

def Datum.ofAtom (chars : List Char) : Datum :=
  match Number.ofWord? chars with
  | some value => .number value
  | none => .symbol (String.ofList chars)

def Frame.push (frame : Frame) (datum : Datum) : Frame :=
  { frame with items := frame.quotes.foldl (fun d _ => .quoted d) datum :: frame.items, quotes := [] }

/-- Assembles tokens on the innermost open list `top` and the lists around it. The outermost frame stands for the text
itself; its bracket means nothing. -/
def assemble (top : Frame) (outer : List Frame) : List Token → Except Fault (List Datum)
  | [] =>
    match top.quotes, outer with
    | position :: _, _ => .error (.bareQuote position)
    | [], [] => .ok top.items.reverse
    | [], _ :: _ => .error (.unclosed top.bracket none)
  | .atom chars :: tokens => assemble (top.push (.ofAtom chars)) outer tokens
  | .string chars :: tokens => assemble (top.push (.string (String.ofList chars))) outer tokens
  | .opening bracket :: tokens => assemble ⟨bracket, [], []⟩ (top :: outer) tokens
  | .closing bracket rest :: tokens =>
    match top.quotes, outer with
    | position :: _, _ => .error (.bareQuote position)
    | [], [] => .error (.leftover (String.ofList rest))
    | [], next :: outer =>
      if bracket = top.bracket then assemble (next.push (.list bracket top.items.reverse)) outer tokens
      else .error (.unclosed top.bracket (some bracket))
  | .quote position :: tokens => assemble { top with quotes := position :: top.quotes } outer tokens
  | .broken fault :: _ => .error fault

/-- The form of a datum; quoted data and square brackets are refused. -/
def ofDatum : Datum → Except Fault Sexp
  | .list .round items => do return .list (← ofData items)
  | .list .square items => .error (.unsupported (.list .square items))
  | .symbol name => .ok (.symbol name)
  | .string value => .ok (.string value)
  | .number value => .ok (.number value)
  | .quoted datum => .error (.unsupported (.quoted datum))
where
  ofData : List Datum → Except Fault (List Sexp)
    | [] => .ok []
    | datum :: data => do
      let form ← ofDatum datum
      let forms ← ofData data
      return form :: forms

def readData (text : List Char) : Except Fault (List Datum) :=
  assemble ⟨.round, [], []⟩ [] (scan 0 .between text)

def readAll (text : String) : Except Fault (List Sexp) := do
  let data ← readData text.toList
  ofDatum.ofData data

def readOne (text : String) : Except Fault Sexp := do
  match ← readAll text with
  | [form] => return form
  | forms => throw (.notOne forms.length)

end Sexp

end TreeLint
