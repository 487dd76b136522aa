import ComponentGraph.Position

/-!
# Places in a YAML text

A cursor is the text that is left, with the number of characters passed and the line and the
column where it stands, all counted from zero. Five characters break lines; a carriage return and
a newline together are one break.
-/

set_option autoImplicit false

namespace ComponentGraph.Yaml

def isAllowed (c : Char) : Bool :=
  c = '\t' || c = '\n' || c = '\r' || (' ' ≤ c && c ≤ '~') || c = '\u0085' ||
    ('\u00a0' ≤ c && c ≠ '\ufffe' && c ≠ '\uffff')

def isBlank (c : Char) : Bool := c = ' ' || c = '\t'

/-- Carriage return, newline, next line, and the separators of lines and paragraphs. -/
def isBreak (c : Char) : Bool :=
  c = '\n' || c = '\r' || c = '\u0085' || c = '\u2028' || c = '\u2029'

/-- The characters of anchors, of directive names and of tag handles. -/
def isNameChar (c : Char) : Bool := c.isAlphanum || c = '_' || c = '-'

/-- The character that a line break leaves in a text: the two separators stay as they are. -/
def normalBreak (c : Char) : Char := if c = '\u2028' ∨ c = '\u2029' then c else '\n'

structure Cursor where
  rest : List Char
  index : Nat := 0
  line : Nat := 0
  column : Nat := 0

namespace Cursor

def ofString (text : String) : Cursor := { rest := text.toList }

def position (c : Cursor) : Position := ⟨c.line + 1, c.column + 1⟩

/-- The character `i` places further on; nothing behind the end of the text. -/
def peek? (c : Cursor) (i : Nat) : Option Char := c.rest[i]?

def atEnd (c : Cursor) : Bool := c.rest.isEmpty

def at? (c : Cursor) (x : Char) : Bool := c.peek? 0 = some x

def blankAt (c : Cursor) (i : Nat) : Bool := (c.peek? i).any isBlank

def breakAt (c : Cursor) (i : Nat) : Bool := (c.peek? i).any isBreak

def breakOrEndAt (c : Cursor) (i : Nat) : Bool := (c.peek? i).all isBreak

def spaceOrEndAt (c : Cursor) (i : Nat) : Bool := (c.peek? i).all fun x => isBlank x || isBreak x

/-- Passes `n` characters of one line. -/
def skip (c : Cursor) (n : Nat := 1) : Cursor :=
  { c with rest := c.rest.drop n, index := c.index + n, column := c.column + n }

def skipWhile (c : Cursor) (p : Char → Bool) : Cursor :=
  c.skip (c.rest.takeWhile p).length

def skipBreak (c : Cursor) : Cursor :=
  match c.rest with
  | '\r' :: '\n' :: rest => { rest, index := c.index + 2, line := c.line + 1 }
  | x :: rest => if isBreak x then { rest, index := c.index + 1, line := c.line + 1 } else c
  | [] => c

/-- The line break that comes next, as it is kept in a text. -/
def break? (c : Cursor) : Option Char := ((c.peek? 0).filter isBreak).map normalBreak

/-- Whether a document marker, three times `mark`, stands here at the start of a line. -/
def atMarker (c : Cursor) (mark : Char) : Bool :=
  c.column = 0 && c.rest.take 3 = [mark, mark, mark] && c.spaceOrEndAt 3

def atAnyMarker (c : Cursor) : Bool := c.atMarker '-' || c.atMarker '.'

/-- Passes blanks and a comment behind them; then a line has to end. -/
def restOfLine? (c : Cursor) : Option Cursor :=
  let c := c.skipWhile isBlank
  let c := if c.at? '#' then c.skipWhile fun x => !isBreak x else c
  if c.breakOrEndAt 0 then some c.skipBreak else none

end Cursor

/-- Reading a part of a text fails with the position where it fails. -/
abbrev Scan : Type → Type := Except Position

end ComponentGraph.Yaml
