import TreeLint.Number.Reader
import TreeLint.Regex.Syntax
import TreeLint.Stop
import TreeLint.Text.Name
import TreeLint.Text.Quoted

/-!
# Reading regular expressions

An expression is read from left to right, one token at a time; a token is a character, or a backslash with the character
after it. Reading fails at a position of the expression, and the message names it.
-/

namespace TreeLint

namespace Regex

structure Fault where
  message : String
  position : Option Nat
  deriving DecidableEq, Repr

/-- The wording of a fault in an expression. Where the expression has several lines, the line and column are named. -/
def Fault.text (fault : Fault) (source : Text) : String :=
  match fault.position with
  | none => fault.message
  | some position =>
    let before := source.take position
    let line := before.countP (·.is '\n') + 1
    let column := (before.reverse.takeWhile fun g => !g.is '\n').length + 1
    let place := if source.any (·.is '\n') then
        " (line " ++ toString line ++ ", column " ++ toString column ++ ")"
      else ""
    fault.message ++ " at position " ++ toString position ++ place

/-- What the reader has found out: the rest of the expression, its groups and the letters of the options for all of
it. -/
structure ReaderState where
  rest : Text
  position : Nat := 0
  size : Nat
  /-- The widths of the groups, the whole first; `none` while a group is open. -/
  groups : List (Option Width) := [none]
  names : List (String × Nat) := []
  /-- Inside a look behind, how many groups there were before it. -/
  behindGroups : Option Nat := none
  /-- Groups that conditions ask for, with the place of the condition. -/
  asked : List (Nat × Nat) := []
  letters : List Char := []

abbrev Reader := StateT ReaderState (Except (Stop Fault))

def failWith (fault : Fault) : Reader α :=
  throw (.fault fault)

def tokenOf : Text → Option Text
  | [] => none
  | [g] => some [g]
  | g :: h :: _ => if g.is '\\' then some [g, h] else some [g]

def peek : Reader (Option Text) := do
  return tokenOf (← get).rest

/-- Fails `back` characters before the next token. -/
def failAt (message : String) (back : Nat := 0) : Reader α := do
  failWith { message, position := some ((← get).position - back) }

def checkEscape : Reader Unit := do
  match (← get).rest with
  | [g] =>
    if g.is '\\' then failWith { message := "bad escape (end of pattern)", position := some ((← get).size - 1) }
  | _ => return

def advance : Reader (Option Text) := do
  let token ← peek
  let taken := (token.map List.length).getD 0
  modify fun s => { s with rest := s.rest.drop taken, position := s.position + taken }
  checkEscape
  return token

def isChar (token : Option Text) (c : Char) : Bool :=
  token == some [.scalar c]

def isOneOf (token : Option Text) (chars : String) : Bool :=
  chars.toList.any (isChar token)

def accept (c : Char) : Reader Bool := do
  if isChar (← peek) c then
    let _ ← advance
    return true
  else return false

def takeWhileIn (chars : String) : Nat → Reader Text
  | 0 => return []
  | count + 1 => do
    let token ← peek
    if isOneOf token chars then
      let _ ← advance
      return (token.getD []) ++ (← takeWhileIn chars count)
    else return []

/-- Takes tokens up to a terminator, which must follow something; `what` names what is read. -/
def takeUntil (terminator : Char) (what : String) : Nat → Text → Reader Text
  | 0, _ => failAt ("missing " ++ what)
  | fuel + 1, read => do
    match ← advance with
    | none =>
      if read.isEmpty then failAt ("missing " ++ what)
      else failAt ("missing " ++ terminator.toString ++ ", unterminated name") read.length
    | some token =>
      if isChar (some token) terminator then
        if read.isEmpty then failAt ("missing " ++ what) 1 else return read
      else takeUntil terminator what fuel (read ++ token)

def hexDigits : String := "0123456789abcdefABCDEF"

def octalDigits : String := "01234567"

def decimalDigits : String := "0123456789"

def digitOf (g : Glyph) : Nat :=
  let n := g.code
  if n ≤ 57 then n - 48 else if n ≤ 70 then n - 55 else n - 87

def valueOf (base : Nat) (digits : Text) : Nat :=
  digits.foldl (fun n g => base * n + digitOf g) 0

inductive Escape where
  | code (n : Nat)
  | category (category : Category) (negated : Bool)
  | place (sign : PlaceSign)
  | again (number : Nat)

def controlEscapes : List (Char × Nat) :=
  [('a', 7), ('b', 8), ('f', 12), ('n', 10), ('r', 13), ('t', 9), ('v', 11), ('\\', 92)]

def categoryEscapes : List (Char × Category × Bool) :=
  [('d', .digit, false), ('D', .digit, true), ('s', .space, false), ('S', .space, true), ('w', .word, false),
    ('W', .word, true)]

def readHexEscape (token : Text) (count : Nat) : Reader Nat := do
  let digits ← takeWhileIn hexDigits count
  let whole := token ++ digits
  if digits.length != count then failAt ("incomplete escape " ++ whole.display) whole.length
  else
    let n := valueOf 16 digits
    if 0x110000 ≤ n then failAt ("bad escape " ++ whole.display) whole.length else return n

def readNamedEscape (fuel : Nat) : Reader Nat := do
  if !(← accept '{') then failAt "missing \x7b"
  else
    let name ← takeUntil '}' "character name" fuel []
    match codeOfName? name.display with
    | some n => return n
    | none => failAt ("undefined character name " ++ name.quoted) (name.length + 4)

/-- The character of an escape that has no meaning of its own. -/
def readPlainEscape (token : Text) : Reader Nat := do
  match token with
  | [_, g] =>
    let n := g.code
    if (65 ≤ n && n ≤ 90) || (97 ≤ n && n ≤ 122) then failAt ("bad escape " ++ token.display) token.length
    else return n
  | _ => failAt ("bad escape " ++ token.display) token.length

def readSetEscape (fuel : Nat) (token : Text) : Reader Escape := do
  let letter := match token with
    | [_, .scalar c] => c
    | _ => ' '
  match controlEscapes.lookup letter, categoryEscapes.lookup letter with
  | some n, _ => return .code n
  | none, some (category, negated) => return .category category negated
  | none, none =>
    if letter == 'x' then return .code (← readHexEscape token 2)
    else if letter == 'u' then return .code (← readHexEscape token 4)
    else if letter == 'U' then return .code (← readHexEscape token 8)
    else if letter == 'N' then return .code (← readNamedEscape fuel)
    else if octalDigits.contains letter then
      let digits ← takeWhileIn octalDigits 2
      let whole := token ++ digits
      let n := valueOf 8 (whole.drop 1)
      if 255 < n then
        failAt ("octal escape value " ++ whole.display ++ " outside of range 0-0o377") whole.length
      else return .code n
    else if letter.isDigit then failAt ("bad escape " ++ token.display) token.length
    else return .code (← readPlainEscape token)

def checkBehindGroup (number : Nat) : Reader Unit := do
  let s ← get
  match s.behindGroups with
  | none => return
  | some limit =>
    if (s.groups[number]?.bind id).isNone then failAt "cannot refer to an open group"
    else if limit ≤ number then failAt "cannot refer to group defined in the same lookbehind subpattern"
    else return

def readNumberEscape (token : Text) : Reader Escape := do
  let second ← takeWhileIn decimalDigits 1
  let whole := token ++ second
  let isOctal (g : Glyph) : Bool := octalDigits.toList.any g.is
  let third ← if second.length == 1 && (whole.drop 1).all isOctal then takeWhileIn octalDigits 1 else pure []
  if third.length == 1 then
    let whole := whole ++ third
    let n := valueOf 8 (whole.drop 1)
    if 255 < n then failAt ("octal escape value " ++ whole.display ++ " outside of range 0-0o377") whole.length
    else return .code n
  else
    let number := valueOf 10 (whole.drop 1)
    let s ← get
    if number < s.groups.length then
      if (s.groups[number]?.bind id).isNone then failAt "cannot refer to an open group" whole.length
      else
        checkBehindGroup number
        return .again number
    else failAt ("invalid group reference " ++ toString number) (whole.length - 1)

def readEscape (fuel : Nat) (token : Text) : Reader Escape := do
  let letter := match token with
    | [_, .scalar c] => c
    | _ => ' '
  match categoryEscapes.lookup letter with
  | some (category, negated) => return .category category negated
  | none =>
    if letter == 'A' then return .place .textStart
    else if letter == 'Z' then return .place .textEnd
    else if letter == 'b' then return .place (.wordEdge false)
    else if letter == 'B' then return .place (.wordEdge true)
    else
      match controlEscapes.lookup letter with
      | some n => return .code n
      | none =>
        if letter == 'x' then return .code (← readHexEscape token 2)
        else if letter == 'u' then return .code (← readHexEscape token 4)
        else if letter == 'U' then return .code (← readHexEscape token 8)
        else if letter == 'N' then return .code (← readNamedEscape fuel)
        else if letter == '0' then
          let digits ← takeWhileIn octalDigits 2
          return .code (valueOf 8 (token.drop 1 ++ digits))
        else if letter.isDigit then readNumberEscape token
        else return .code (← readPlainEscape token)

def Escape.member : Escape → Member
  | code n => .code n
  | category c negated => .category c negated
  | _ => .code 0

def readMembers (start : Nat) : Nat → List Member → Reader (List Member)
  | 0, _ => failAt "unterminated character set"
  | fuel + 1, members => do
    let unterminated : Reader (List Member) :=
      failWith { message := "unterminated character set", position := some start }
    match ← advance with
    | none => unterminated
    | some token =>
      if isChar (some token) ']' && !members.isEmpty then return members.reverse
      else
        let readMember (token : Text) : Reader Escape := do
          match token with
          | [g] => return .code g.code
          | _ => readSetEscape fuel token
        let first ← readMember token
        if ← accept '-' then
          match ← advance with
          | none => unterminated
          | some last =>
            if isChar (some last) ']' then return (.code 45 :: first.member :: members).reverse
            else
              let second ← readMember last
              let badRange : Reader (List Member) :=
                failAt ("bad character range " ++ token.display ++ "-" ++ last.display) (token.length + 1 + last.length)
              match first, second with
              | .code lo, .code hi =>
                if hi < lo then badRange else readMembers start fuel (.range lo hi :: members)
              | _, _ => badRange
        else readMembers start fuel (first.member :: members)

/-- The item that a set of members is; one character alone stands for itself. -/
def setItem (members : List Member) (negated : Bool) : Item :=
  match members.eraseDups with
  | [.code n] => .char n negated
  | members => .set members negated

def countOf (digits : Text) : Reader Nat := do
  if maxIntDigits < digits.length then throw (.breakdown (.digitCount digits.length))
  else if uncounted ≤ valueOf 10 digits then throw (.breakdown .repeatCount)
  else return valueOf 10 digits

/-- The bounds of a repetition in braces, if they are well formed; nothing is taken otherwise. -/
def readBounds (fuel : Nat) : Reader (Option (Nat × Option Nat)) := do
  let saved ← get
  let lo ← takeWhileIn decimalDigits fuel
  let comma ← accept ','
  let hi ← if comma then takeWhileIn decimalDigits fuel else pure lo
  if ← accept '}' then
    let least ← if lo.isEmpty then pure 0 else countOf lo
    let most ← if hi.isEmpty then pure none else some <$> countOf hi
    if most.any (· < least) then
      failWith { message := "min repeat greater than max repeat", position := some saved.position }
    else return some (least, most)
  else
    set saved
    return none

def optionLetters : List Char := ['i', 'L', 'm', 's', 'x', 'a', 't', 'u']

def optionOf? (token : Text) : Option Char :=
  match token with
  | [.scalar c] => if optionLetters.contains c then some c else none
  | _ => none

def isAlphabetic (token : Text) : Bool :=
  token.all fun g => isLetter g.code

/-- Reads the letters of options to turn on; gives them and the token that ends them. -/
def readOptionsOn : Nat → Char → List Char → Reader (List Char × Char)
  | 0, _, _ => failAt "missing -, : or )"
  | fuel + 1, letter, on => do
    if letter == 'L' then failAt "bad inline flags: cannot use 'L' flag with a str pattern"
    else
      let on := letter :: on
      if on.contains 'a' && on.contains 'u' then
        failAt "bad inline flags: flags 'a', 'u' and 'L' are incompatible"
      else
        match ← advance with
        | none => failAt "missing -, : or )"
        | some token =>
          if isOneOf (some token) ")-:" then
            return (on, if isChar (some token) ')' then ')' else if isChar (some token) '-' then '-' else ':')
          else
            match optionOf? token with
            | some letter => readOptionsOn fuel letter on
            | none =>
              failAt (if isAlphabetic token then "unknown flag" else "missing -, : or )") token.length

def readOptionsOff : Nat → Char → List Char → Reader (List Char)
  | 0, _, _ => failAt "missing :"
  | fuel + 1, letter, off => do
    if ['a', 'L', 'u'].contains letter then failAt "bad inline flags: cannot turn off flags 'a', 'u' and 'L'"
    else
      match ← advance with
      | none => failAt "missing :"
      | some token =>
        if isChar (some token) ':' then return letter :: off
        else
          match optionOf? token with
          | some next => readOptionsOff fuel next (letter :: off)
          | none => failAt (if isAlphabetic token then "unknown flag" else "missing :") token.length

/-- Reads options after `(?`, starting with a letter or a minus sign; `none` stands for options of the whole
expression, which are put in force. -/
def readOptions (fuel : Nat) (start : Char) : Reader (Option (List Char × List Char)) := do
  let (on, ending) ← if start == '-' then pure ([], '-') else readOptionsOn fuel start []
  if ending == ')' then
    modify fun s => { s with letters := s.letters ++ on }
    return none
  else if on.contains 't' then failAt "bad inline flags: cannot turn on global flag" 1
  else
    let off ← if ending == '-' then do
        match ← advance with
        | none => failAt "missing flag"
        | some token =>
          match optionOf? token with
          | some letter => readOptionsOff fuel letter []
          | none => failAt (if isAlphabetic token then "unknown flag" else "missing flag") token.length
      else pure []
    if off.contains 't' then failAt "bad inline flags: cannot turn off global flag" 1
    else if on.any off.contains then failAt "bad inline flags: flag turned on and off" 1
    else return some (on, off)

def readGroupName (fuel : Nat) (terminator : Char) : Reader Text := do
  let name ← takeUntil terminator "group name" fuel []
  match name with
  | g :: rest =>
    if isIdentifierStart g.code && rest.all (fun g => isIdentifierPart g.code) then return name
    else failAt ("bad character in group name " ++ name.quoted) (name.length + 1)
  | [] => failAt "missing group name"

def openGroup (name : Option Text) : Reader Nat := do
  let s ← get
  let number := s.groups.length
  match name with
  | none =>
    set { s with groups := s.groups ++ [none] }
    return number
  | some name =>
    match s.names.lookup name.display with
    | some other =>
      failAt ("redefinition of group name " ++ name.quoted ++ " as group " ++ toString number ++ "; was group " ++
        toString other) (name.length + 1)
    | none =>
      set { s with groups := s.groups ++ [none], names := s.names ++ [(name.display, number)] }
      return number

def closeGroup (number : Nat) (width : Width) : Reader Unit :=
  modify fun s => { s with groups := s.groups.set number (some width) }

def closeBracket (start : Nat) : Reader Unit := do
  if !(← accept ')') then failWith { message := "missing ), unterminated subpattern", position := some start }

def skipComment (start : Nat) : Nat → Reader Unit
  | 0 => return
  | fuel + 1 => do
    match ← peek with
    | none => failWith { message := "missing ), unterminated comment", position := some start }
    | some token =>
      let _ ← advance
      if isChar (some token) ')' then return else skipComment start fuel

def skipLine : Nat → Reader Unit
  | 0 => return
  | fuel + 1 => do
    match ← advance with
    | none => return
    | some token => if isChar (some token) '\n' then return else skipLine fuel

def readGreed : Reader Greed := do
  if ← accept '?' then return .reluctant
  if ← accept '+' then return .possessive
  return .greedy

/-- Items, the last first, with the last repeated; `here` is where the repetition sign stands. -/
def repeatLast (items : List Item) (least : Nat) (most : Option Nat) (here : Nat) : Reader (List Item) := do
  match items with
  | [] | .place _ :: _ => failWith { message := "nothing to repeat", position := some here }
  | .times _ _ _ _ :: _ => failWith { message := "multiple repeat", position := some here }
  | item :: before => return .times (← readGreed) least most item.unpacked :: before

def Escape.item : Escape → Item
  | code n => .char n false
  | category c negated => .set [.category c negated] false
  | place sign => .place sign
  | again number => .again number

inductive GroupOpening where
  | capture (name : Option Text)
  | plain (on off : List Char)
  | atomic
  | look (behind negated : Bool)
  | condition (number : Nat)
  | again (number : Nat)
  | comment
  | options

/-- A number that is greater than every number of a group. -/
def groupLimit : Nat := 1073741823

def readGroupNumber? (word : Text) : Option Nat :=
  let chars := word.mapM fun
    | .scalar c => some c
    | _ => none
  match chars.bind readInt? with
  | some (.ofNat number) => some number
  | _ => none

def readCondition (fuel : Nat) : Reader Nat := do
  let name ← takeUntil ')' "group name" fuel []
  let isName := match name with
    | g :: rest => isIdentifierStart g.code && rest.all (fun g => isIdentifierPart g.code)
    | [] => false
  let s ← get
  let number ← if isName then
      match s.names.lookup name.display with
      | some number => pure number
      | none => failAt ("unknown group name " ++ name.quoted) (name.length + 1)
    else
      match readGroupNumber? name with
      | none => failAt ("bad character in group name " ++ name.quoted) (name.length + 1)
      | some 0 => failAt "bad group number" (name.length + 1)
      | some number =>
        if groupLimit ≤ number then failAt ("invalid group reference " ++ toString number) (name.length + 1)
        else do
          if !s.asked.any (·.1 == number) then
            modify fun s => { s with asked := s.asked ++ [(number, s.position - name.length - 1)] }
          pure number
  checkBehindGroup number
  return number

/-- Reads what stands between the bracket of a group at `start` and its body. -/
def readOpening (fuel start : Nat) : Reader GroupOpening := do
  if !(← accept '?') then return .capture none
  else
    match ← advance with
    | none => failAt "unexpected end of pattern"
    | some token =>
      let isToken (c : Char) : Bool := isChar (some token) c
      if isToken 'P' then
        if ← accept '<' then return .capture (some (← readGroupName fuel '>'))
        else if ← accept '=' then
          let name ← readGroupName fuel ')'
          let s ← get
          match s.names.lookup name.display with
          | none => failAt ("unknown group name " ++ name.quoted) (name.length + 1)
          | some number =>
            if (s.groups[number]?.bind id).isNone then failAt "cannot refer to an open group" (name.length + 1)
            else
              checkBehindGroup number
              return .again number
        else
          match ← advance with
          | none => failAt "unexpected end of pattern"
          | some next => failAt ("unknown extension ?P" ++ next.display) (next.length + 2)
      else if isToken ':' then return .plain [] []
      else if isToken '#' then
        skipComment start fuel
        return .comment
      else if isToken '=' then return .look false false
      else if isToken '!' then return .look false true
      else if isToken '<' then
        match ← advance with
        | none => failAt "unexpected end of pattern"
        | some next =>
          if isChar (some next) '=' then return .look true false
          else if isChar (some next) '!' then return .look true true
          else failAt ("unknown extension ?<" ++ next.display) (next.length + 2)
      else if isToken '(' then return .condition (← readCondition fuel)
      else if isToken '>' then return .atomic
      else if (optionOf? token).isSome || isToken '-' then
        let letter := match token with
          | [.scalar c] => c
          | _ => '-'
        match ← readOptions fuel letter with
        | none => return .options
        | some (on, off) => return .plain on off
      else failAt ("unknown extension ?" ++ token.display) (token.length + 1)

mutual

/-- Reads alternatives up to a closing bracket or the end; `top` says that they are the whole expression. -/
def readAlternatives (top first verbose : Bool) : Nat → Reader (List (List Item))
  | 0 => failAt "expression too deep"
  | fuel + 1 => do
    let items ← readSequence (top && first) verbose [] fuel
    if ← accept '|' then
      let letters := (← get).letters
      let verbose := if top then letters.contains 'x' else verbose
      let others ← readAlternatives top false verbose fuel
      return items :: others
    else return [items]

/-- Reads a sequence up to a bar, a closing bracket or the end; `items` are those read so far, the last first. -/
def readSequence (first verbose : Bool) (items : List Item) : Nat → Reader (List Item)
  | 0 => failAt "expression too deep"
  | fuel + 1 => do
    let token ← peek
    if token.isNone || isOneOf token "|)" then return items.reverse.flatMap Item.unpacked
    else
      let start := (← get).position
      let _ ← advance
      let goOn (items : List Item) : Reader (List Item) := readSequence first verbose items fuel
      if verbose && isOneOf token " \t\n\r\x0b\x0c" then goOn items
      else if verbose && isChar token '#' then
        skipLine (fuel + 1)
        goOn items
      else
        match token with
        | some [g] =>
          if g.is '[' then
            let negated ← accept '^'
            let members ← readMembers start (fuel + 1) []
            goOn (setItem members negated :: items)
          else if g.is '?' then goOn (← repeatLast items 0 (some 1) start)
          else if g.is '*' then goOn (← repeatLast items 0 none start)
          else if g.is '+' then goOn (← repeatLast items 1 none start)
          else if g.is '{' then
            if isChar (← peek) '}' then goOn (.char g.code false :: items)
            else
              match ← readBounds (fuel + 1) with
              | none => goOn (.char g.code false :: items)
              | some (least, most) => goOn (← repeatLast items least most start)
          else if g.is '.' then goOn (.any :: items)
          else if g.is '^' then goOn (.place .caret :: items)
          else if g.is '$' then goOn (.place .dollar :: items)
          else if g.is '(' then
            match ← readOpening (fuel + 1) start with
            | .comment => goOn items
            | .again number => goOn (.again number :: items)
            | .options =>
              let verbose := (← get).letters.contains 'x'
              if !first || !items.isEmpty then
                failWith { message := "global flags not at the start of the expression", position := some start }
              else readSequence first verbose items fuel
            | .look behind negated =>
              let outer := (← get).behindGroups
              if behind && outer.isNone then modify fun s => { s with behindGroups := some s.groups.length }
              let body ← readAlternatives false false verbose fuel
              if behind && outer.isNone then modify fun s => { s with behindGroups := none }
              closeBracket start
              goOn (.look behind negated (alternation body) :: items)
            | .condition number =>
              let yes ← readSequence false verbose [] fuel
              let no ← if ← accept '|' then do
                  let no ← readSequence false verbose [] fuel
                  if isChar (← peek) '|' then failAt "conditional backref with more than two branches" else pure no
                else pure []
              closeBracket start
              goOn (.condition number yes no :: items)
            | .atomic =>
              let body ← readAlternatives false false verbose fuel
              closeBracket start
              goOn (.atomic (alternation body) :: items)
            | .plain on off =>
              let body ← readAlternatives false false ((verbose || on.contains 'x') && !off.contains 'x') fuel
              closeBracket start
              goOn (.grouped on off (alternation body) :: items)
            | .capture name =>
              let number ← openGroup name
              let body := alternation (← readAlternatives false false verbose fuel)
              closeBracket start
              closeGroup number (sequenceWidth (← get).groups body)
              goOn (.capture number body :: items)
          else goOn (.char g.code false :: items)
        | some token =>
          let escape ← readEscape (fuel + 1) token
          goOn (escape.item :: items)
        | none => return items.reverse.flatMap Item.unpacked

end

structure Written where
  items : List Item
  letters : List Char
  groups : List (Option Width)
  names : List (String × Nat)

def readWhole (size : Nat) : Reader Written := do
  checkEscape
  let items := alternation (← readAlternatives true true false (4 * size + 8))
  let s ← get
  if s.letters.contains 'a' && s.letters.contains 'u' then throw (.breakdown .alphabets)
  else if !s.rest.isEmpty then failAt "unbalanced parenthesis"
  else
    match s.asked.find? fun (number, _) => s.groups.length ≤ number with
    | some (number, place) =>
      failWith { message := "invalid group reference " ++ toString number, position := some place }
    | none => return { items, letters := s.letters, groups := s.groups, names := s.names }

def readItems (source : Text) : Except (Stop Fault) Written :=
  (readWhole source.length).run' { rest := source, size := source.length }

def specialChars : List Char :=
  "()[]\x7b\x7d?*+-|^$\\.&~# \t\n\r\x0b\x0c".toList

def escape (s : String) : String :=
  String.ofList (s.toList.flatMap fun c => if specialChars.contains c then ['\\', c] else [c])

end Regex

end TreeLint
