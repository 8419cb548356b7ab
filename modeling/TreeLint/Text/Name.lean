/-!
# Names of characters

Characters by the names that Unicode gives them, without regard to case. The table holds the Latin, Greek and Cyrillic
letters of European languages, the punctuation and signs most in use, and control characters with their other names; all
other names are left out.

Characters that follow each other are listed together: the first of them, how all their names begin, and how each of the
names goes on. Letters that a script has in two cases are listed once for both.
-/

namespace TreeLint

structure NameRun where
  first : Nat
  stem : String
  endings : String

structure LetterRun where
  script : String
  capital : Nat
  small : Nat
  step : Nat
  letters : String

/-- The names of control characters and the short names of some signs without a width. -/
def controlNames : List NameRun := [
  ⟨0x0, "", "NULL, START OF HEADING, START OF TEXT, END OF TEXT, END OF TRANSMISSION, ENQUIRY, ACKNOWLEDGE, ALERT, " ++
    "BACKSPACE, CHARACTER TABULATION, LINE FEED, LINE TABULATION, FORM FEED, CARRIAGE RETURN, SHIFT OUT, SHIFT IN, " ++
    "DATA LINK ESCAPE, DEVICE CONTROL ONE, DEVICE CONTROL TWO, DEVICE CONTROL THREE, DEVICE CONTROL FOUR, NEGATIVE " ++
    "ACKNOWLEDGE, SYNCHRONOUS IDLE, END OF TRANSMISSION BLOCK, CANCEL, END OF MEDIUM, SUBSTITUTE, ESCAPE, " ++
    "INFORMATION SEPARATOR FOUR, INFORMATION SEPARATOR THREE, INFORMATION SEPARATOR TWO, INFORMATION SEPARATOR ONE"⟩,
  ⟨0x0, "", "NUL, SOH, STX, ETX, EOT, ENQ, ACK, BEL, BS, HT, LF, VT, FF, CR, SO, SI, DLE, DC1, DC2, DC3, DC4, NAK, " ++
    "SYN, ETB, CAN, EOM, SUB, ESC, FS, GS, RS, US"⟩,
  ⟨0x85, "", "NEXT LINE"⟩,
  ⟨0x85, "", "NEL"⟩,
  ⟨0x9, "", "HORIZONTAL TABULATION"⟩,
  ⟨0x9, "", "TAB, END OF LINE"⟩,
  ⟨0xA, "", "EOL"⟩,
  ⟨0xA, "", "NEW LINE"⟩,
  ⟨0xA, "", "NL, VERTICAL TABULATION"⟩,
  ⟨0xE, "", "LOCKING-SHIFT ONE, LOCKING-SHIFT ZERO"⟩,
  ⟨0x1C, "", "FILE SEPARATOR, GROUP SEPARATOR, RECORD SEPARATOR, UNIT SEPARATOR, SP"⟩,
  ⟨0x7F, "", "DEL"⟩,
  ⟨0x7F, "", "DELETE"⟩,
  ⟨0xA0, "", "NBSP"⟩,
  ⟨0xAD, "", "SHY"⟩,
  ⟨0x200B, "", "ZWSP, ZWNJ, ZWJ, LRM, RLM"⟩,
  ⟨0x202A, "", "LRE, RLE, PDF, LRO, RLO"⟩,
  ⟨0x2060, "", "WJ"⟩,
  ⟨0xFEFF, "", "BOM"⟩,
  ⟨0xFEFF, "", "BYTE ORDER MARK"⟩,
  ⟨0xFEFF, "", "ZWNBSP"⟩]

def letterRuns : List LetterRun := [
  ⟨"LATIN", 0x41, 0x61, 1, "A, B, C, D, E, F, G, H, I, J, K, L, M, N, O, P, Q, R, S, T, U, V, W, X, Y, Z"⟩,
  ⟨"LATIN", 0xC0, 0xE0, 1, "A WITH GRAVE, A WITH ACUTE, A WITH CIRCUMFLEX, A WITH TILDE, A WITH DIAERESIS, A WITH " ++
    "RING ABOVE, AE, C WITH CEDILLA, E WITH GRAVE, E WITH ACUTE, E WITH CIRCUMFLEX, E WITH DIAERESIS, I WITH " ++
    "GRAVE, I WITH ACUTE, I WITH CIRCUMFLEX, I WITH DIAERESIS, ETH, N WITH TILDE, O WITH GRAVE, O WITH ACUTE, O " ++
    "WITH CIRCUMFLEX, O WITH TILDE, O WITH DIAERESIS"⟩,
  ⟨"LATIN", 0xD8, 0xF8, 1, "O WITH STROKE, U WITH GRAVE, U WITH ACUTE, U WITH CIRCUMFLEX, U WITH DIAERESIS, Y WITH " ++
    "ACUTE, THORN"⟩,
  ⟨"LATIN", 0x100, 0x101, 2, "A WITH MACRON, A WITH BREVE, A WITH OGONEK, C WITH ACUTE, C WITH CIRCUMFLEX, C WITH " ++
    "DOT ABOVE, C WITH CARON, D WITH CARON, D WITH STROKE, E WITH MACRON, E WITH BREVE, E WITH DOT ABOVE, E WITH " ++
    "OGONEK, E WITH CARON, G WITH CIRCUMFLEX, G WITH BREVE, G WITH DOT ABOVE, G WITH CEDILLA, H WITH CIRCUMFLEX, H " ++
    "WITH STROKE, I WITH TILDE, I WITH MACRON, I WITH BREVE, I WITH OGONEK"⟩,
  ⟨"LATIN", 0x139, 0x13A, 2, "L WITH ACUTE, L WITH CEDILLA, L WITH CARON, L WITH MIDDLE DOT, L WITH STROKE, N WITH " ++
    "ACUTE, N WITH CEDILLA, N WITH CARON"⟩,
  ⟨"LATIN", 0x14A, 0x14B, 2, "ENG, O WITH MACRON, O WITH BREVE, O WITH DOUBLE ACUTE"⟩,
  ⟨"LATIN", 0x154, 0x155, 2, "R WITH ACUTE, R WITH CEDILLA, R WITH CARON, S WITH ACUTE, S WITH CIRCUMFLEX, S WITH " ++
    "CEDILLA, S WITH CARON, T WITH CEDILLA, T WITH CARON, T WITH STROKE, U WITH TILDE, U WITH MACRON, U WITH " ++
    "BREVE, U WITH RING ABOVE, U WITH DOUBLE ACUTE, U WITH OGONEK, W WITH CIRCUMFLEX, Y WITH CIRCUMFLEX"⟩,
  ⟨"LATIN", 0x179, 0x17A, 2, "Z WITH ACUTE, Z WITH DOT ABOVE, Z WITH CARON"⟩,
  ⟨"GREEK", 0x391, 0x3B1, 1, "ALPHA, BETA, GAMMA, DELTA, EPSILON, ZETA, ETA, THETA, IOTA, KAPPA, LAMDA, MU, NU, " ++
    "XI, OMICRON, PI, RHO"⟩,
  ⟨"GREEK", 0x3A3, 0x3C3, 1, "SIGMA, TAU, UPSILON, PHI, CHI, PSI, OMEGA, IOTA WITH DIALYTIKA, UPSILON WITH " ++
    "DIALYTIKA"⟩,
  ⟨"CYRILLIC", 0x410, 0x430, 1, "A, BE, VE, GHE, DE, IE, ZHE, ZE, I, SHORT I, KA, EL, EM, EN, O, PE, ER, ES, TE, " ++
    "U, EF, HA, TSE, CHE, SHA, SHCHA, HARD SIGN, YERU, SOFT SIGN, E, YU, YA"⟩,
  ⟨"CYRILLIC", 0x400, 0x450, 1, "IE WITH GRAVE, IO, DJE, GJE, UKRAINIAN IE, DZE, BYELORUSSIAN-UKRAINIAN I, YI, JE, " ++
    "LJE, NJE, TSHE, KJE, I WITH GRAVE, SHORT U, DZHE"⟩]

def signNames : List NameRun := [
  ⟨0x20, "", "SPACE, EXCLAMATION MARK, QUOTATION MARK, NUMBER SIGN, DOLLAR SIGN, PERCENT SIGN, AMPERSAND, " ++
    "APOSTROPHE, LEFT PARENTHESIS, RIGHT PARENTHESIS, ASTERISK, PLUS SIGN, COMMA, HYPHEN-MINUS, FULL STOP, SOLIDUS"⟩,
  ⟨0x30, "DIGIT ", "ZERO, ONE, TWO, THREE, FOUR, FIVE, SIX, SEVEN, EIGHT, NINE"⟩,
  ⟨0x3A, "", "COLON, SEMICOLON, LESS-THAN SIGN, EQUALS SIGN, GREATER-THAN SIGN, QUESTION MARK, COMMERCIAL AT"⟩,
  ⟨0x5B, "", "LEFT SQUARE BRACKET, REVERSE SOLIDUS, RIGHT SQUARE BRACKET, CIRCUMFLEX ACCENT, LOW LINE, GRAVE " ++
    "ACCENT"⟩,
  ⟨0x7B, "", "LEFT CURLY BRACKET, VERTICAL LINE, RIGHT CURLY BRACKET, TILDE"⟩,
  ⟨0xA0, "", "NO-BREAK SPACE, INVERTED EXCLAMATION MARK, CENT SIGN, POUND SIGN, CURRENCY SIGN, YEN SIGN, BROKEN " ++
    "BAR, SECTION SIGN, DIAERESIS, COPYRIGHT SIGN, FEMININE ORDINAL INDICATOR, LEFT-POINTING DOUBLE ANGLE " ++
    "QUOTATION MARK, NOT SIGN, SOFT HYPHEN, REGISTERED SIGN, MACRON, DEGREE SIGN, PLUS-MINUS SIGN, SUPERSCRIPT " ++
    "TWO, SUPERSCRIPT THREE, ACUTE ACCENT, MICRO SIGN, PILCROW SIGN, MIDDLE DOT, CEDILLA, SUPERSCRIPT ONE, " ++
    "MASCULINE ORDINAL INDICATOR, RIGHT-POINTING DOUBLE ANGLE QUOTATION MARK, VULGAR FRACTION ONE QUARTER, VULGAR " ++
    "FRACTION ONE HALF, VULGAR FRACTION THREE QUARTERS, INVERTED QUESTION MARK"⟩,
  ⟨0xD7, "", "MULTIPLICATION SIGN"⟩,
  ⟨0xDF, "", "LATIN SMALL LETTER SHARP S"⟩,
  ⟨0xF7, "", "DIVISION SIGN"⟩,
  ⟨0x152, "LATIN ", "CAPITAL LIGATURE OE, SMALL LIGATURE OE"⟩,
  ⟨0x2000, "", "EN QUAD, EM QUAD, EN SPACE, EM SPACE, THREE-PER-EM SPACE, FOUR-PER-EM SPACE, SIX-PER-EM SPACE, " ++
    "FIGURE SPACE, PUNCTUATION SPACE, THIN SPACE, HAIR SPACE, ZERO WIDTH SPACE, ZERO WIDTH NON-JOINER, ZERO WIDTH " ++
    "JOINER, LEFT-TO-RIGHT MARK, RIGHT-TO-LEFT MARK, HYPHEN, NON-BREAKING HYPHEN, FIGURE DASH, EN DASH, EM DASH, " ++
    "HORIZONTAL BAR, DOUBLE VERTICAL LINE, DOUBLE LOW LINE, LEFT SINGLE QUOTATION MARK, RIGHT SINGLE QUOTATION " ++
    "MARK, SINGLE LOW-9 QUOTATION MARK, SINGLE HIGH-REVERSED-9 QUOTATION MARK, LEFT DOUBLE QUOTATION MARK, RIGHT " ++
    "DOUBLE QUOTATION MARK, DOUBLE LOW-9 QUOTATION MARK, DOUBLE HIGH-REVERSED-9 QUOTATION MARK, DAGGER, DOUBLE " ++
    "DAGGER, BULLET, TRIANGULAR BULLET, ONE DOT LEADER, TWO DOT LEADER, HORIZONTAL ELLIPSIS, HYPHENATION POINT, " ++
    "LINE SEPARATOR, PARAGRAPH SEPARATOR, LEFT-TO-RIGHT EMBEDDING, RIGHT-TO-LEFT EMBEDDING, POP DIRECTIONAL " ++
    "FORMATTING, LEFT-TO-RIGHT OVERRIDE, RIGHT-TO-LEFT OVERRIDE, NARROW NO-BREAK SPACE, PER MILLE SIGN, PER TEN " ++
    "THOUSAND SIGN, PRIME, DOUBLE PRIME, TRIPLE PRIME, REVERSED PRIME, REVERSED DOUBLE PRIME, REVERSED TRIPLE " ++
    "PRIME, CARET, SINGLE LEFT-POINTING ANGLE QUOTATION MARK, SINGLE RIGHT-POINTING ANGLE QUOTATION MARK"⟩,
  ⟨0x20AC, "", "EURO SIGN"⟩,
  ⟨0x2116, "", "NUMERO SIGN"⟩,
  ⟨0x2122, "", "TRADE MARK SIGN"⟩,
  ⟨0x2190, "", "LEFTWARDS ARROW, UPWARDS ARROW, RIGHTWARDS ARROW, DOWNWARDS ARROW, LEFT RIGHT ARROW, UP DOWN " ++
    "ARROW, NORTH WEST ARROW, NORTH EAST ARROW, SOUTH EAST ARROW, SOUTH WEST ARROW"⟩,
  ⟨0x21D0, "", "LEFTWARDS DOUBLE ARROW, UPWARDS DOUBLE ARROW, RIGHTWARDS DOUBLE ARROW, DOWNWARDS DOUBLE ARROW, " ++
    "LEFT RIGHT DOUBLE ARROW, UP DOWN DOUBLE ARROW"⟩,
  ⟨0x2212, "", "MINUS SIGN"⟩,
  ⟨0x221E, "", "INFINITY"⟩,
  ⟨0x2248, "", "ALMOST EQUAL TO"⟩,
  ⟨0x2260, "", "NOT EQUAL TO, IDENTICAL TO, NOT IDENTICAL TO, STRICTLY EQUIVALENT TO, LESS-THAN OR EQUAL TO, " ++
    "GREATER-THAN OR EQUAL TO"⟩]

/-- The place of a name among names that begin alike. -/
def placeOfName? (stem endings name : String) : Option Nat :=
  if name.startsWith stem then (endings.splitOn ", ").idxOf? (name.drop stem.length).toString else none

def NameRun.codeOf? (run : NameRun) (name : String) : Option Nat :=
  (placeOfName? run.stem run.endings name).map (run.first + ·)

def LetterRun.codeOf? (run : LetterRun) (name : String) : Option Nat :=
  (placeOfName? (run.script ++ " CAPITAL LETTER ") run.letters name).map (run.capital + run.step * ·) <|>
    (placeOfName? (run.script ++ " SMALL LETTER ") run.letters name).map (run.small + run.step * ·)

def codeOfName? (name : String) : Option Nat :=
  let name := name.map Char.toUpper
  letterRuns.findSome? (·.codeOf? name) <|> (controlNames ++ signNames).findSome? (·.codeOf? name)

end TreeLint
