import ComponentGraph.Hex
import ComponentGraph.Yaml.Token

/-!
# Tags in the text

A tag is a handle and a suffix. A verbatim tag `!<...>` has the empty handle; a tag that begins
with no handle of its own has the handle `!`; and the tag `!` alone is a suffix without handle.
In a suffix a `%` escapes one character, octet by octet of its UTF-8 form.
-/

set_option autoImplicit false

namespace ComponentGraph.Yaml.Token

def octet (c : Cursor) : Scan (Nat × Cursor) :=
  match c.rest with
  | '%' :: rest =>
    match hexNumber? 2 rest with
    | some n => .ok (n, c.skip 3)
    | none => .error c.position
  | _ => .error c.position

/-- The octets after the first one of a character. -/
def trailingOctets : Nat → Cursor → Scan (TagText × Cursor)
  | 0, c => .ok ([], c)
  | n + 1, c => do
    let (b, c') ← octet c
    if b / 64 ≠ 2 then .error c.position
    else
      let (bs, c') ← trailingOctets n c'
      return (UInt8.ofNat b :: bs, c')

/-- One escaped character; the first octet tells how many there are. -/
def escapedChar (c : Cursor) : Scan (TagText × Cursor) := do
  let (b, c') ← octet c
  let more ←
    if b < 0x80 then pure 0
    else if b < 0xC0 then .error c.position
    else if b < 0xE0 then pure 1
    else if b < 0xF0 then pure 2
    else if b < 0xF8 then pure 3
    else .error c.position
  let (bs, c') ← trailingOctets more c'
  return (UInt8.ofNat b :: bs, c')

/-- The characters of a tag. Flow indicators count only where nothing else could end the tag. -/
def isUriChar (flow : Bool) (c : Char) : Bool :=
  isNameChar c || ";/?:@&=+$.!~*'()%".contains c || (flow && ",[]".contains c)

/-- The longest run of tag characters, with escapes resolved. -/
def uri (flow : Bool) : Nat → Cursor → Scan (TagText × Cursor)
  | 0, c => .ok ([], c)
  | fuel + 1, c =>
    match c.peek? 0 with
    | none => .ok ([], c)
    | some x =>
      if !isUriChar flow x then .ok ([], c)
      else do
        let (bs, c) ← if x = '%' then escapedChar c else pure (TagText.ofChars [x], c.skip)
        let (more, c) ← uri flow fuel c
        return (bs ++ more, c)

def uriOf (flow : Bool) (c : Cursor) : Scan (TagText × Cursor) := uri flow c.rest.length c

def nonEmptyUri (flow : Bool) (c : Cursor) : Scan (TagText × Cursor) := do
  let (bs, c') ← uriOf flow c
  if bs.isEmpty then .error c.position else return (bs, c')

/-- A `!`, the name characters after it, and a second `!` if one follows. -/
def handle (c : Cursor) : List Char × Cursor :=
  let name := (c.rest.drop 1).takeWhile isNameChar
  let c := c.skip (name.length + 1)
  if c.at? '!' then ('!' :: name ++ ['!'], c.skip) else ('!' :: name, c)

/-- A tag in front of a node; `inFlow` tells whether a comma may end it. -/
def scanTag (inFlow : Bool) (start : Cursor) : Scan (Token × Cursor) := do
  let bang := TagText.ofChars ['!']
  let (t, c) ←
    if start.peek? 1 = some '<' then do
      let (bs, c) ← nonEmptyUri true (start.skip 2)
      if c.at? '>' then pure (Token.tag [] bs, c.skip) else .error c.position
    else
      let (name, c) := handle start
      if 2 ≤ name.length ∧ name.getLast? = some '!' then do
        let (bs, c) ← nonEmptyUri false c
        pure (Token.tag (TagText.ofChars name) bs, c)
      else do
        let (bs, c) ← uriOf false c
        let suffix := TagText.ofChars name.tail ++ bs
        pure (if suffix.isEmpty then Token.tag [] bang else Token.tag bang suffix, c)
  if (inFlow ∧ c.at? ',') ∨ c.spaceOrEndAt 0 then return (t, c) else .error c.position

end ComponentGraph.Yaml.Token
