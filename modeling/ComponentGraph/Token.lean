import ComponentGraph.Fault

/-!
# Tokens of type expressions

Six kinds of tokens carry meaning: identifiers and the five punctuation marks. Every other
character outside white space is a token of kind `error` by itself, and the end of the input is a
token too, so that each error can name the token that it met.
-/

set_option autoImplicit false

namespace ComponentGraph

inductive TokenKind
  | identifier
  | openAngle
  | closeAngle
  | comma
  | openParen
  | closeParen
  | error
  | endOfInput
  deriving DecidableEq, Repr

structure Token where
  kind : TokenKind
  text : String
  position : Position
  deriving DecidableEq, Repr

/-- White space between tokens: space, tab, newline and carriage return. -/
def isBlank (c : Char) : Bool := c == ' ' || c == '\t' || c == '\n' || c == '\r'

/-- An identifier starts with an ASCII letter, `_` or `-`. -/
def isWordStart (c : Char) : Bool := c.isAlpha || c == '_' || c == '-'

/-- An identifier goes on with the characters that start one and with ASCII digits. -/
def isWordChar (c : Char) : Bool := c.isDigit || isWordStart c

/-- The kind of a token that is one character and no identifier. -/
def TokenKind.ofMark : Char → TokenKind
  | '<' => .openAngle
  | '>' => .closeAngle
  | ',' => .comma
  | '(' => .openParen
  | ')' => .closeParen
  | _ => .error

namespace Token

def describe (t : Token) : String :=
  match t.kind with
  | .endOfInput => "end of input"
  | _ => t.text

def unexpected (t : Token) : Fault := ⟨.unexpectedToken t.describe, some t.position⟩

end Token

end ComponentGraph
