import ComponentGraph.Hex
import ComponentGraph.Yaml.Folded
import ComponentGraph.Yaml.Token

/-!
# Plain and quoted scalars

Both kinds run on over line breaks, which are folded. In single quotes a quote is written twice;
in double quotes there are escapes. A plain scalar ends at a comment, at a value indicator, in a
flow collection at a flow indicator, and in a block at a line that is not indented enough.
-/

set_option autoImplicit false

namespace ComponentGraph.Yaml.Token

def escaped? : Char → Option Char
  | '0' => some '\x00'
  | 'a' => some '\x07'
  | 'b' => some '\x08'
  | 't' | '\t' => some '\t'
  | 'n' => some '\n'
  | 'v' => some '\x0b'
  | 'f' => some '\x0c'
  | 'r' => some '\r'
  | 'e' => some '\x1b'
  | ' ' => some ' '
  | '"' => some '"'
  | '/' => some '/'
  | '\\' => some '\\'
  | 'N' => some '\u0085'
  | '_' => some '\u00a0'
  | 'L' => some '\u2028'
  | 'P' => some '\u2029'
  | _ => none

def codeLength? : Char → Option Nat
  | 'x' => some 2
  | 'u' => some 4
  | 'U' => some 8
  | _ => none

/-- The character that is escaped here, from the backslash on. -/
def escape (c : Cursor) : Scan (Char × Cursor) :=
  match c.peek? 1 with
  | none => .error c.position
  | some x =>
    let c := c.skip 2
    match codeLength? x with
    | some n =>
      match hexNumber? n c.rest with
      | some code =>
        if code.isValidChar then .ok (Char.ofNat code, c.skip n) else .error c.position
      | none => .error c.position
    | none =>
      match escaped? x with
      | some e => .ok (e, c)
      | none => .error c.position

/-- The rest of a quoted scalar. Every step passes a character. -/
def quoted (single : Bool) : Nat → Cursor → Folded → Scan (Folded × Cursor)
  | 0, c, _ => .error c.position
  | fuel + 1, c, f =>
    if c.atAnyMarker then .error c.position
    else
      match c.peek? 0 with
      | none => .error c.position
      | some x =>
        if isBlank x then quoted single fuel c.skip (f.blank x)
        else if isBreak x then quoted single fuel c.skipBreak (f.lineBreak (normalBreak x))
        else if single ∧ x = '\'' ∧ c.peek? 1 = some '\'' then
          quoted single fuel (c.skip 2) (f.char '\'')
        else if x = (if single then '\'' else '"') then .ok (f.settle, c.skip)
        else if !single ∧ x = '\\' then
          if c.breakAt 1 then quoted single fuel c.skip.skipBreak f.joinLines
          else do
            let (e, c) ← escape c
            quoted single fuel c (f.char e)
        else quoted single fuel c.skip (f.char x)

def scanQuoted (single : Bool) (bound : Nat) (start : Cursor) : Scan (Token × Cursor) := do
  let (f, c) ← quoted single (bound + 1) start.skip {}
  return (.scalar f.toString false, c)

/-- Whether a plain scalar ends before this character, which is no blank and no break. -/
def endsPlain (inFlow : Bool) (indent : Int) (c : Cursor) (f : Folded) (x : Char) : Bool :=
  (f.isWaiting && ((!inFlow && c.column < indent) || x = '#')) || c.atAnyMarker ||
    (x = ':' && c.spaceOrEndAt 1) || (inFlow && ",[]\x7b\x7d".contains x)

def plain (inFlow : Bool) (indent : Int) : Nat → Cursor → Folded → Scan (Folded × Cursor)
  | 0, c, f => .ok (f, c)
  | fuel + 1, c, f =>
    match c.peek? 0 with
    | none => .ok (f, c)
    | some x =>
      if isBlank x then
        if f.broken ∧ c.column < indent ∧ x = '\t' then .error c.position
        else plain inFlow indent fuel c.skip (f.blank x)
      else if isBreak x then plain inFlow indent fuel c.skipBreak (f.lineBreak (normalBreak x))
      else if endsPlain inFlow indent c f x then .ok (f, c)
      else if inFlow ∧ x = ':' ∧ (c.peek? 1).any (",?[]\x7b\x7d".contains ·) then
        .error c.position
      else plain inFlow indent fuel c.skip (f.char x)

/-- A plain scalar. The flag tells whether its end stands in a later line. -/
def scanPlain (inFlow : Bool) (parent : Int) (bound : Nat) (start : Cursor) :
    Scan (Token × Bool × Cursor) := do
  let (f, c) ← plain inFlow (parent + 1) (bound + 1) start {}
  return (.scalar f.toString true, f.broken, c)

end ComponentGraph.Yaml.Token
