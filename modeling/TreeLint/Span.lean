/-!
# Spans

A span is a range `[start, stop)` of byte offsets in a source, with the line and column of its start where they are
known and the name of the file where there is one. Lines and columns count from one; zero stands for an unknown one.
-/

namespace TreeLint

structure Span where
  start : Int := 0
  stop : Int := 0
  line : Int := 0
  column : Int := 0
  file : String := ""
  deriving DecidableEq, Inhabited, Repr

namespace Span

/-- The span from `start` to `stop`; it is empty when `stop` comes first. -/
def between (start stop : Int) (line column : Int := 0) (file : String := "") : Span :=
  { start, stop := max start stop, line, column, file }

/-- Whether two spans overlap. An empty span overlaps whatever it touches. -/
def intersects (a b : Span) : Bool :=
  if a.start == a.stop then b.start ≤ a.start && a.start ≤ b.stop
  else if b.start == b.stop then a.start ≤ b.start && b.start ≤ a.stop
  else a.start < b.stop && b.start < a.stop

/-- A span as shown in messages: file, line and column as far as they are known, and the offsets if none is. -/
def text (span : Span) : String :=
  let place := if span.line > 0 then
      toString span.line :: (if span.column > 0 then [toString span.column] else [])
    else []
  let parts := (if span.file.isEmpty then [] else [span.file]) ++ place
  if parts.isEmpty then "[" ++ toString span.start ++ ", " ++ toString span.stop ++ ")"
  else ":".intercalate parts

end Span

end TreeLint
