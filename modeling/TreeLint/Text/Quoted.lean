import TreeLint.Text.Glyph
import TreeLint.Text.Printable

/-!
# Quoted text

Messages show names and source text in quotes. The quote is `'` unless the text holds `'` and no `"`. Inside, the
backslash and the quote are escaped by a backslash, line ends and tabs by letter, and whatever is not printable by its
number in hexadecimal, in the shortest of the forms `\x`, `\u` and `\U` that fits.
-/

namespace TreeLint

namespace Text

def quoteFor (text : Text) : Char :=
  if text.any (·.is '\'') && !text.any (·.is '"') then '"' else '\''

def numericEscape (code : Nat) : String :=
  if code < 0x100 then "\\x" ++ hex 2 code
  else if code < 0x10000 then "\\u" ++ hex 4 code
  else "\\U" ++ hex 8 code

def quotedGlyph (quote : Char) (g : Glyph) : String :=
  if g.is '\\' then "\\\\"
  else if g.is quote then "\\" ++ quote.toString
  else if g.is '\n' then "\\n"
  else if g.is '\r' then "\\r"
  else if g.is '\t' then "\\t"
  else match g with
    | .scalar c => if isPrintable c.toNat then c.toString else numericEscape c.toNat
    | .stray _ => numericEscape g.code

def quoted (text : Text) : String :=
  let quote := quoteFor text
  quote.toString ++ String.join (text.map (quotedGlyph quote)) ++ quote.toString

end Text

def quoted (s : String) : String :=
  (Text.ofString s).quoted

end TreeLint
