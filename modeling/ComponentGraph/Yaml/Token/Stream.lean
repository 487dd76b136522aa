import ComponentGraph.Yaml.Token.BlockScalar
import ComponentGraph.Yaml.Token.Directive
import ComponentGraph.Yaml.Token.FlowScalar

/-!
# The tokens of a text

Whether a node is a key shows only when a value indicator follows it, so the place of every node
that may be a key is kept, one for each open flow collection and one for the block around them. A
key without an indicator of its own stands in one line and is at most 1024 characters long.

Tokens that may still get a key indicator in front are not given away. When the text cannot be
cut into tokens, the tokens from the first such place on are therefore dropped.
-/

set_option autoImplicit false

namespace ComponentGraph.Yaml

structure KeyPlace where
  cursor : Cursor
  token : Nat
  /-- Whether the block can only go on with a key there. -/
  required : Bool

structure Lexer where
  /-- The length of the text, which bounds the length of every part. -/
  bound : Nat
  cursor : Cursor
  /-- The tokens so far, last first, and how many they are. -/
  tokens : List PlacedToken := []
  count : Nat := 0
  /-- The column of the innermost block; -1 outside of all blocks. -/
  indent : Int := -1
  outerIndents : List Int := []
  /-- Whether a key may start here. -/
  keyAllowed : Bool := true
  /-- The place for a key in the innermost flow collection, or in the block outside of all. -/
  key : Option KeyPlace := none
  /-- The places for keys outside of each open flow collection. -/
  outerKeys : List (Option KeyPlace) := []
  ended : Bool := false

namespace Lexer

def inFlow (s : Lexer) : Bool := !s.outerKeys.isEmpty

def fail {α : Type} (s : Lexer) : Scan α := .error s.cursor.position

def push (s : Lexer) (t : Token) : Lexer :=
  { s with tokens := ⟨t, s.cursor.position⟩ :: s.tokens, count := s.count + 1 }

/-- Puts a token in front of those from number `i` on. -/
def insertAt (s : Lexer) (i : Nat) (t : Token) (position : Position) : Lexer :=
  let (after, before) := s.tokens.splitAt (s.count - i)
  { s with tokens := after ++ ⟨t, position⟩ :: before, count := s.count + 1 }

def skip (s : Lexer) (n : Nat) : Lexer := { s with cursor := s.cursor.skip n }

/-- A key cannot go on in another line or beyond its longest length. -/
def isStale (s : Lexer) (k : KeyPlace) : Bool :=
  k.cursor.line < s.cursor.line || k.cursor.index + 1024 < s.cursor.index

/-- Forgets the places that are too far back for a key. -/
def forgetStale (s : Lexer) : Scan Lexer :=
  let keys := s.key :: s.outerKeys
  if keys.any fun k => k.any fun k => s.isStale k && k.required then s.fail
  else
    let fresh (k : Option KeyPlace) : Option KeyPlace := k.filter fun k => !s.isStale k
    .ok { s with key := fresh s.key, outerKeys := s.outerKeys.map fresh }

def dropKey (s : Lexer) : Scan Lexer :=
  if s.key.any KeyPlace.required then s.fail else .ok { s with key := none }

def saveKey (s : Lexer) : Scan Lexer :=
  if !s.keyAllowed then .ok s
  else do
    let required := !s.inFlow && s.indent == s.cursor.column
    let s ← s.dropKey
    return { s with key := some ⟨s.cursor, s.count, required⟩ }

/-- Ends the blocks that are indented more than `column`. -/
def unroll (column : Int) (s : Lexer) : Lexer :=
  if s.inFlow then s else close s s.outerIndents
where
  close (s : Lexer) : List Int → Lexer
    | [] => s
    | outer :: more =>
      if s.indent ≤ column then s
      else close { s.push .blockEnd with indent := outer, outerIndents := more } more

/-- Starts a block at `column` if it is indented more than the current one. -/
def roll (s : Lexer) (column : Nat) (number : Nat) (t : Token) (position : Position) : Lexer :=
  if s.inFlow ∨ column ≤ s.indent then s
  else
    { s with indent := column, outerIndents := s.indent :: s.outerIndents }.insertAt number t
      position

/-- Passes blanks, comments and line breaks before the next token. A tab is no indentation. -/
def toNextToken : Nat → Lexer → Lexer
  | 0, s => s
  | fuel + 1, s =>
    let c := if s.cursor.column = 0 ∧ s.cursor.at? '\ufeff' then s.cursor.skip else s.cursor
    let tabs := s.inFlow || !s.keyAllowed
    let c := c.skipWhile fun x => x = ' ' || (tabs && x = '\t')
    let c := if c.at? '#' then c.skipWhile fun x => !isBreak x else c
    if c.breakAt 0 then
      toNextToken fuel { s with cursor := c.skipBreak, keyAllowed := s.keyAllowed || !s.inFlow }
    else { s with cursor := c }

def streamEnd (s : Lexer) : Scan Lexer := do
  let s ← (s.unroll (-1)).dropKey
  return { s.push .streamEnd with keyAllowed := false, ended := true }

def directive (s : Lexer) : Scan Lexer := do
  let s ← (s.unroll (-1)).dropKey
  let (t, cursor) ← Token.scanDirective s.cursor
  return { s.push t with keyAllowed := false, cursor }

def marker (s : Lexer) (t : Token) : Scan Lexer := do
  let s ← (s.unroll (-1)).dropKey
  return { s.push t with keyAllowed := false }.skip 3

def flowStart (s : Lexer) (t : Token) : Scan Lexer := do
  let s ← s.saveKey
  return { s.push t with keyAllowed := true, key := none, outerKeys := s.key :: s.outerKeys }.skip 1

def flowEnd (s : Lexer) (t : Token) : Scan Lexer := do
  let s ← s.dropKey
  let s := { s.push t with keyAllowed := false }.skip 1
  match s.outerKeys with
  | [] => return s
  | key :: outerKeys => return { s with key, outerKeys }

def flowEntry (s : Lexer) : Scan Lexer := do
  let s ← s.dropKey
  return { s.push .flowEntry with keyAllowed := true }.skip 1

def rollHere (s : Lexer) (t : Token) : Scan Lexer :=
  if s.inFlow then .ok s
  else if !s.keyAllowed then s.fail
  else .ok (s.roll s.cursor.column s.count t s.cursor.position)

def blockEntry (s : Lexer) : Scan Lexer := do
  let s ← (← s.rollHere .blockSequenceStart).dropKey
  return { s.push .blockEntry with keyAllowed := true }.skip 1

def keyMark (s : Lexer) : Scan Lexer := do
  let s ← (← s.rollHere .blockMappingStart).dropKey
  return { s.push .key with keyAllowed := !s.inFlow }.skip 1

/-- A value indicator makes the node before it a key, if that may be one. -/
def valueMark (s : Lexer) : Scan Lexer :=
  match s.key with
  | some k =>
    let position := k.cursor.position
    let s := s.insertAt k.token .key position
    let s := s.roll k.cursor.column k.token .blockMappingStart position
    .ok ({ s.push .value with key := none, keyAllowed := false }.skip 1)
  | none => do
    let s ← s.rollHere .blockMappingStart
    return { s.push .value with keyAllowed := !s.inFlow }.skip 1

/-- A token that is an anchor or an alias, named by the characters behind its indicator. -/
def named (s : Lexer) (make : String → Token) : Scan Lexer := do
  let s ← s.saveKey
  let name := (s.cursor.rest.drop 1).takeWhile isNameChar
  let c := s.cursor.skip (name.length + 1)
  if name = [] then s.fail
  else if c.spaceOrEndAt 0 ∨ (c.peek? 0).any ("?:,]\x7d%@`".contains ·) then
    return { s.push (make (String.ofList name)) with keyAllowed := false, cursor := c }
  else .error c.position

def tag (s : Lexer) : Scan Lexer := do
  let s ← s.saveKey
  let (t, cursor) ← Token.scanTag s.inFlow s.cursor
  return { s.push t with keyAllowed := false, cursor }

def blockScalar (s : Lexer) (literal : Bool) : Scan Lexer := do
  let s ← s.dropKey
  let (t, cursor) ← Token.scanBlockScalar literal s.indent s.bound s.cursor
  return { s.push t with keyAllowed := true, cursor }

def quoted (s : Lexer) (single : Bool) : Scan Lexer := do
  let s ← s.saveKey
  let (t, cursor) ← Token.scanQuoted single s.bound s.cursor
  return { s.push t with keyAllowed := false, cursor }

def plain (s : Lexer) : Scan Lexer := do
  let s ← s.saveKey
  let (t, broken, cursor) ← Token.scanPlain s.inFlow s.indent s.bound s.cursor
  return { s.push t with keyAllowed := broken, cursor }

def startsPlain (s : Lexer) (x : Char) : Bool :=
  (!isBlank x && !isBreak x && !"-?:,[]\x7b\x7d#&*!|>'\"%@`".contains x) ||
    (x = '-' && !s.cursor.blankAt 1) ||
    (!s.inFlow && (x = '?' || x = ':') && !s.cursor.spaceOrEndAt 1)

def token (s : Lexer) : Scan Lexer :=
  match s.cursor.peek? 0 with
  | none => s.streamEnd
  | some x =>
    let spaced := s.cursor.spaceOrEndAt 1
    if s.cursor.column = 0 ∧ x = '%' then s.directive
    else if s.cursor.atMarker '-' then s.marker .documentStart
    else if s.cursor.atMarker '.' then s.marker .documentEnd
    else if x = '[' then s.flowStart .flowSequenceStart
    else if x = '\x7b' then s.flowStart .flowMappingStart
    else if x = ']' then s.flowEnd .flowSequenceEnd
    else if x = '\x7d' then s.flowEnd .flowMappingEnd
    else if x = ',' then s.flowEntry
    else if x = '-' ∧ spaced then s.blockEntry
    else if x = '?' ∧ (s.inFlow ∨ spaced) then s.keyMark
    else if x = ':' ∧ (s.inFlow ∨ spaced) then s.valueMark
    else if x = '*' then s.named .alias
    else if x = '&' then s.named .anchor
    else if x = '!' then s.tag
    else if x = '|' ∧ !s.inFlow then s.blockScalar true
    else if x = '>' ∧ !s.inFlow then s.blockScalar false
    else if x = '\'' then s.quoted true
    else if x = '"' then s.quoted false
    else if s.startsPlain x then s.plain
    else s.fail

def step (s : Lexer) : Scan Lexer := do
  let s := toNextToken (s.bound + 1) s
  let s ← s.forgetStale
  (s.unroll s.cursor.column).token

/-- How many tokens have their final place: those before every place where a key may start. -/
def settled (s : Lexer) : Nat :=
  (s.key :: s.outerKeys).foldl (fun n k =>
    match k with
    | some k => if s.isStale k && !k.required then n else min n k.token
    | none => n) s.count

end Lexer

/-- The tokens of a text, and where cutting failed if it did. -/
structure TokenStream where
  tokens : List PlacedToken
  failure : Option Position

namespace TokenStream

/-- Every step but the last passes a character. -/
def run : Nat → Lexer → TokenStream
  | 0, s => ⟨s.tokens.reverse, none⟩
  | fuel + 1, s =>
    if s.ended then ⟨s.tokens.reverse, none⟩
    else
      match s.step with
      | .ok s' => run fuel s'
      | .error position => ⟨s.tokens.reverse.take s.settled, some position⟩

/-- A byte order mark may stand in front of a text. -/
def ofText (text : List Char) : TokenStream :=
  let text := if text.head? = some '\ufeff' then text.tail else text
  match text.find? fun c => !isAllowed c with
  | some c => ⟨[], some (Position.start.advance (text.takeWhile (· ≠ c)))⟩
  | none => run (text.length + 2) { bound := text.length, cursor := { rest := text } }

end TokenStream

end ComponentGraph.Yaml
