import TreeLint.Grammar.Build
import TreeLint.Source

/-!
# Tokens

A source is cut into tokens that cover it without gaps.

* At each position the token rule with the longest match wins, then the one with the higher priority, then the earlier
  one; an empty match does not count.
* Where no rule matches, blanks form a token of the kind `whitespace` and other characters one of the kind `unknown`.
  Such a token goes on until the class of the characters changes or some rule matches.
* Every `unknown` token is a problem of the source, and there are no other problems at this level.
-/

namespace TreeLint

structure Token where
  kind : String
  kindId : Nat
  start : Nat
  stop : Nat
  text : Text
  trivia : Bool := false
  line : Nat := 1
  column : Nat := 1
  deriving DecidableEq, Inhabited, Repr

def Token.show (token : Token) : String :=
  "Token(" ++ token.kind ++ ", " ++ token.text.quoted ++ ", [" ++ toString token.start ++ ", " ++ toString token.stop ++
    "))"

/-- The end of the match of a token rule at a position, if the match is not empty. -/
def Scanner.reach? (scanner : Scanner) (subject : Array Glyph) (position : Nat) : Option Nat :=
  match scanner.regex.matchAt subject position with
  | some cursor =>
    if position < cursor.position && cursor.position ≤ subject.size then some cursor.position else none
  | none => none

theorem Scanner.lt_of_reach? {scanner : Scanner} {subject : Array Glyph} {position stop : Nat}
    (h : scanner.reach? subject position = some stop) : position < stop := by
  unfold Scanner.reach? at h
  split at h
  · split at h
    · simp only [Option.some.injEq] at h
      simp_all
    · simp at h
  · simp at h

structure Candidate where
  rule : Grammar.TokenRule
  stop : Nat

/-- Whether a candidate wins over one from an earlier rule. -/
def Candidate.beats (challenger champion : Candidate) : Bool :=
  champion.stop < challenger.stop ||
    (champion.stop == challenger.stop && champion.rule.priority < challenger.rule.priority)

def bestFrom (subject : Array Glyph) (position : Nat) (champion : Option Candidate) : List Scanner → Option Candidate
  | [] => champion
  | scanner :: scanners =>
    match scanner.reach? subject position with
    | none => bestFrom subject position champion scanners
    | some stop =>
      let challenger : Candidate := { rule := scanner.rule, stop }
      match champion with
      | none => bestFrom subject position (some challenger) scanners
      | some current =>
        bestFrom subject position (some (if challenger.beats current then challenger else current)) scanners

theorem lt_stop_bestFrom {subject : Array Glyph} {position : Nat} {champion : Option Candidate}
    {scanners : List Scanner} {winner : Candidate} (hc : ∀ c, champion = some c → position < c.stop)
    (h : bestFrom subject position champion scanners = some winner) : position < winner.stop := by
  induction scanners generalizing champion with
  | nil => exact hc _ h
  | cons scanner scanners ih =>
    unfold bestFrom at h
    split at h
    · exact ih hc h
    · rename_i stop hs
      have hlt := scanner.lt_of_reach? hs
      split at h
      · exact ih (by rintro c ⟨⟩; exact hlt) h
      · rename_i current
        refine ih ?_ h
        rintro c ⟨⟩
        split
        · exact hlt
        · exact hc _ rfl

def best? (scanners : List Scanner) (subject : Array Glyph) (position : Nat) : Option Candidate :=
  bestFrom subject position none scanners

theorem lt_stop_best? {scanners : List Scanner} {subject : Array Glyph} {position : Nat} {winner : Candidate}
    (h : best? scanners subject position = some winner) : position < winner.stop :=
  lt_stop_bestFrom (by simp) h

def matchesAt (scanners : List Scanner) (subject : Array Glyph) (position : Nat) : Bool :=
  scanners.any fun scanner => (scanner.reach? subject position).isSome

def isBlankAt (subject : Array Glyph) (position : Nat) : Bool :=
  (subject.getD position default).isBlank

/-- The end of the run of characters, blank or not, that no rule matches. -/
def runEnd (scanners : List Scanner) (subject : Array Glyph) (blank : Bool) (position : Nat) : Nat :=
  if position < subject.size then
    if isBlankAt subject position == blank && !matchesAt scanners subject position then
      runEnd scanners subject blank (position + 1)
    else position
  else position
termination_by subject.size - position

theorem le_runEnd (scanners : List Scanner) (subject : Array Glyph) (blank : Bool) (position : Nat) :
    position ≤ runEnd scanners subject blank position := by
  fun_induction runEnd with
  | case1 position _ _ ih => omega
  | case2 | case3 => exact Nat.le_refl _

structure Piece where
  kind : String
  trivia : Bool
  start : Nat
  stop : Nat
  deriving DecidableEq, Repr

def pieceAt (scanners : List Scanner) (subject : Array Glyph) (position : Nat) : Piece :=
  match best? scanners subject position with
  | some winner => { kind := winner.rule.name, trivia := winner.rule.trivia, start := position, stop := winner.stop }
  | none =>
    let blank := isBlankAt subject position
    { kind := if blank then Grammar.whitespaceKind else Grammar.unknownKind, trivia := blank, start := position,
      stop := runEnd scanners subject blank (position + 1) }

theorem lt_stop_pieceAt (scanners : List Scanner) (subject : Array Glyph) (position : Nat) :
    position < (pieceAt scanners subject position).stop := by
  unfold pieceAt
  split
  · rename_i h
    exact lt_stop_best? h
  · exact le_runEnd _ _ _ _

def piecesFrom (scanners : List Scanner) (subject : Array Glyph) (position : Nat) : List Piece :=
  if position < subject.size then
    pieceAt scanners subject position :: piecesFrom scanners subject (pieceAt scanners subject position).stop
  else []
termination_by subject.size - position
decreasing_by
  have := lt_stop_pieceAt scanners subject position
  omega

def placeAfter (line column : Nat) : Text → Nat × Nat
  | [] => (line, column)
  | g :: rest => if g.is '\n' then placeAfter (line + 1) 1 rest else placeAfter line (column + 1) rest

def tokensFrom (grammar : Grammar) (source : Source) (line column : Nat) : List Piece → List Token
  | [] => []
  | piece :: pieces =>
    let text := (source.glyphs.extract piece.start piece.stop).toList
    let next := placeAfter line column text
    { kind := piece.kind, kindId := grammar.kindId piece.kind, start := source.byteAt piece.start,
      stop := source.byteAt piece.stop, text, trivia := piece.trivia, line, column } ::
      tokensFrom grammar source next.1 next.2 pieces

def tokenize (grammar : Grammar) (source : Source) : List Token :=
  tokensFrom grammar source 1 1 (piecesFrom grammar.scanners source.glyphs 0)

def Token.problem? (token : Token) : Option Problem :=
  if token.kind == Grammar.unknownKind then
    some {
      span := Span.between token.start token.stop token.line token.column
      message := "unrecognized input " ++ token.text.quoted
      code := .unmatchedInput
      lexeme := some token.text }
  else none

def lexicalProblems (tokens : List Token) : List Problem :=
  tokens.filterMap Token.problem?

end TreeLint
