/-!
Source positions and spans.

Lines count from one, columns and offsets from zero, all in characters. A span is the half-open
range between two positions. `Position.past` is the only rule by which reading a character moves a
position: every line terminator starts a new line, and the carriage return of a CR LF pair leaves
that to the line feed.

The numbers have no upper bound here. In a source of fewer than `2 ^ 32 - 1` characters all of them
fit into 32 bits: `Position.IsExact.lt_size` in `EcmaScript.Proofs.Exact.Scan`.
-/

namespace EcmaScript

/-- Line feed, carriage return, line separator and paragraph separator. -/
def isLineTerminator (c : Char) : Bool :=
  c == '\n' || c == '\r' || c == '\u2028' || c == '\u2029'

/-- A place between two characters of a source text. -/
structure Position where
  /-- Line number, from one. -/
  line : Nat
  /-- Characters since the start of the line. -/
  column : Nat
  /-- Characters since the start of the source. -/
  offset : Nat
deriving DecidableEq, Inhabited

namespace Position

/-- The position before the first character. -/
def start : Position := ⟨1, 0, 0⟩

def past (p : Position) (c : Char) (next : Option Char) : Position :=
  if c == '\r' && next == some '\n' then ⟨p.line, p.column + 1, p.offset + 1⟩
  else if isLineTerminator c then ⟨p.line + 1, 0, p.offset + 1⟩
  else ⟨p.line, p.column + 1, p.offset + 1⟩

/-- The position as `line:column`. -/
def render (p : Position) : String :=
  toString p.line ++ ":" ++ toString p.column

/-- Reading a character moves the offset by one, whatever the character is. -/
@[simp] theorem past_offset (p : Position) (c : Char) (next : Option Char) :
    (p.past c next).offset = p.offset + 1 := by
  unfold past
  split
  · rfl
  · split <;> rfl

end Position

/-- The half-open source range from `start` to `stop`. -/
structure Span where
  /-- Position of the first character. -/
  start : Position
  /-- Position just past the last character. -/
  stop : Position
deriving DecidableEq, Inhabited

namespace Span

/-- The empty span at `p`. -/
def empty (p : Position) : Span := ⟨p, p⟩

/-- Number of characters covered; a span whose ends are reversed covers none. -/
def length (s : Span) : Nat := s.stop.offset - s.start.offset

/-- Whether the span covers no character. -/
def isEmpty (s : Span) : Bool := s.length == 0

end Span

end EcmaScript
