import ComponentGraph.Hex
import ComponentGraph.Position
import ComponentGraph.Json.Numeral

/-!
# JSON tokens

A text becomes tokens one character at a time: a machine gathers the characters of a word or of a
string and gives a token when it ends. A word is a literal or a numeral. A failure is the position
where the text stops being JSON.
-/

set_option autoImplicit false

namespace ComponentGraph.Json

inductive Token
  | openBrace
  | closeBrace
  | openBracket
  | closeBracket
  | comma
  | colon
  | null
  | bool (value : Bool)
  | number (value : Number)
  | string (text : String)

namespace Token

def ofMark? : Char → Option Token
  | '{' => some openBrace
  | '}' => some closeBrace
  | '[' => some openBracket
  | ']' => some closeBracket
  | ',' => some comma
  | ':' => some colon
  | _ => none

def ofWord? (word : List Char) : Option Token :=
  if word = "null".toList then some null
  else if word = "true".toList then some (bool true)
  else if word = "false".toList then some (bool false)
  else ((Numeral.ofText? word).bind Numeral.toNumber?).map number

end Token

def isWordChar (c : Char) : Bool := c.isAlphanum || c == '+' || c == '-' || c == '.'

def isBlank (c : Char) : Bool := c == ' ' || c == '\t' || c == '\n' || c == '\r'

def escaped? : Char → Option Char
  | '"' => some '"'
  | '\\' => some '\\'
  | '/' => some '/'
  | 'b' => some '\x08'
  | 'f' => some '\x0c'
  | 'n' => some '\n'
  | 'r' => some '\r'
  | 't' => some '\t'
  | _ => none

namespace Lexer

/-- Inside of what the machine stands. Characters are gathered last first. -/
inductive Mode
  | gap
  | word (chars : List Char)
  | string (chars : List Char)
  /-- Behind a backslash; `high` is a leading surrogate that waits for its other half. -/
  | escape (chars : List Char) (high : Option Nat)
  /-- Inside of the four digits of a code. -/
  | code (chars : List Char) (high : Option Nat) (digits value : Nat)
  /-- Behind a leading surrogate, whose other half has to follow. -/
  | half (chars : List Char) (high : Nat)

structure State where
  mode : Mode := .gap
  position : Position := .start
  /-- The tokens so far with the positions of their last characters, last first. -/
  tokens : List (Token × Position) := []

def give (s : State) (t : Token) : State :=
  { s with mode := .gap, tokens := (t, s.position) :: s.tokens }

/-- One character in a gap between tokens. -/
def gap (s : State) (c : Char) : Option State :=
  if isBlank c then some s
  else if c = '"' then some { s with mode := .string [] }
  else if isWordChar c then some { s with mode := .word [c] }
  else (Token.ofMark? c).map (give s)

/-- The character of a complete code, unless half of a pair is missing. -/
def unicode (s : State) (chars : List Char) (high : Option Nat) (value : Nat) : Option State :=
  match high with
  | some h =>
    if 0xDC00 ≤ value ∧ value ≤ 0xDFFF then
      let c := Char.ofNat (0x10000 + (h - 0xD800) * 0x400 + (value - 0xDC00))
      some { s with mode := .string (c :: chars) }
    else none
  | none =>
    if 0xD800 ≤ value ∧ value ≤ 0xDBFF then some { s with mode := .half chars value }
    else if 0xDC00 ≤ value ∧ value ≤ 0xDFFF then none
    else some { s with mode := .string (Char.ofNat value :: chars) }

def step (s : State) (c : Char) : Option State :=
  match s.mode with
  | .gap => gap s c
  | .word chars =>
    if isWordChar c then some { s with mode := .word (c :: chars) }
    else (Token.ofWord? chars.reverse).bind fun t => gap (give s t) c
  | .string chars =>
    if c = '"' then some (give s (.string (String.ofList chars.reverse)))
    else if c = '\\' then some { s with mode := .escape chars none }
    else if c < ' ' then none
    else some { s with mode := .string (c :: chars) }
  | .escape chars high =>
    if c = 'u' then some { s with mode := .code chars high 0 0 }
    else if high.isSome then none
    else (escaped? c).map fun e => { s with mode := .string (e :: chars) }
  | .code chars high digits value =>
    (hexValue? c).bind fun d =>
    let value := 16 * value + d
    if digits = 3 then unicode s chars high value
    else some { s with mode := .code chars high (digits + 1) value }
  | .half chars high =>
    if c = '\\' then some { s with mode := .escape chars (some high) } else none

def advance (s : State) (c : Char) : Except Position State :=
  match step s c with
  | some s' => .ok { s' with position := s.position.after c }
  | none => .error s.position

def finish (s : State) : Except Position (List (Token × Position)) :=
  match s.mode with
  | .gap => .ok s.tokens.reverse
  | .word chars =>
    match Token.ofWord? chars.reverse with
    | some t => .ok (give s t).tokens.reverse
    | none => .error s.position
  | _ => .error s.position

end Lexer

def Token.ofText (text : String) : Except Position (List (Token × Position)) :=
  (text.toList.foldlM Lexer.advance {}).bind Lexer.finish

end ComponentGraph.Json
