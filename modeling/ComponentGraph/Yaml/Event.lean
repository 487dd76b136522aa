import ComponentGraph.Yaml.Token.Stream

/-!
# YAML events

Events say where documents, collections and scalars start and end. The rules of block and of flow
collections say which token may come next and what an omitted node stands for; each step gives
one event. Tag handles are resolved here by the directives of the document.
-/

set_option autoImplicit false

namespace ComponentGraph.Yaml

/-- What stands in front of a node. -/
structure Properties where
  anchor : Option String := none
  tag : Option TagText := none

inductive Event
  | documentStart
  | documentEnd
  | streamEnd
  | alias (name : String)
  | scalar (properties : Properties) (text : String) (plain : Bool)
  | sequenceStart (properties : Properties)
  | sequenceEnd
  | mappingStart (properties : Properties)
  | mappingEnd

def Event.omitted : Event := .scalar {} "" true

inductive Expected
  | firstDocument
  | document
  | documentContent
  | documentEnd
  | blockNode
  | blockSequenceEntry
  /-- An entry of a sequence that is indented like the mapping around it. -/
  | indentlessEntry
  | blockMappingKey
  | blockMappingValue
  | flowSequenceEntry (first : Bool)
  /-- The parts of a mapping with one entry that is an item of a flow sequence. -/
  | pairKey
  | pairValue
  | pairEnd
  | flowMappingKey (first : Bool)
  | flowMappingValue
  /-- The value of a key without a value indicator. -/
  | flowMappingNoValue
  deriving DecidableEq

structure Grammar where
  tokens : List PlacedToken
  /-- Where the text cannot be cut into further tokens. -/
  failure : Position
  expected : Expected := .firstDocument
  /-- What is expected after the current node and the collections around it. -/
  outer : List Expected := []
  handles : List (TagText × TagText) := []

namespace Grammar

def peek (g : Grammar) : Scan PlacedToken :=
  match g.tokens with
  | t :: _ => .ok t
  | [] => .error g.failure

def position (g : Grammar) : Position := (g.tokens.head?.map PlacedToken.position).getD g.failure

def pass (g : Grammar) : Grammar := { g with tokens := g.tokens.tail }

def goTo (g : Grammar) (e : Expected) : Grammar := { g with expected := e }

def later (g : Grammar) (e : Expected) : Grammar := { g with outer := e :: g.outer }

def resume (g : Grammar) : Grammar :=
  match g.outer with
  | [] => g.goTo .document
  | e :: outer => { g with expected := e, outer }

/-- The handles that every document knows. -/
def defaultHandles : List (TagText × TagText) :=
  [("!".toUTF8.toList, "!".toUTF8.toList), ("!!".toUTF8.toList, "tag:yaml.org,2002:".toUTF8.toList)]

def resolveTag (g : Grammar) (handle suffix : TagText) (position : Position) : Scan TagText :=
  if handle.isEmpty then .ok suffix
  else
    match g.handles.find? fun h => h.1 = handle with
    | some h => .ok (h.2 ++ suffix)
    | none => .error position

/-- An anchor and a tag in front of a node, each at most once and in any order. -/
def properties (g : Grammar) : Scan (Properties × Grammar) := do
  let t ← g.peek
  match t.token with
  | .anchor name =>
    let g := g.pass
    let t ← g.peek
    match t.token with
    | .tag handle suffix =>
      let tag ← g.resolveTag handle suffix t.position
      return (⟨some name, some tag⟩, g.pass)
    | _ => return (⟨some name, none⟩, g)
  | .tag handle suffix =>
    let g := g.pass
    let t' ← g.peek
    match t'.token with
    | .anchor name =>
      let tag ← g.resolveTag handle suffix t.position
      return (⟨some name, some tag⟩, g.pass)
    | _ =>
      let tag ← g.resolveTag handle suffix t.position
      return (⟨none, some tag⟩, g)
  | _ => return ({}, g)

def node (block indentless : Bool) (g : Grammar) : Scan (Event × Grammar) := do
  let t ← g.peek
  match t.token with
  | .alias name => return (.alias name, g.pass.resume)
  | _ =>
    let (properties, g) ← g.properties
    let t ← g.peek
    match t.token, block, indentless with
    | .blockEntry, _, true => return (.sequenceStart properties, g.goTo .indentlessEntry)
    | .scalar text plain, _, _ => return (.scalar properties text plain, g.pass.resume)
    | .flowSequenceStart, _, _ =>
      return (.sequenceStart properties, g.pass.goTo (.flowSequenceEntry true))
    | .flowMappingStart, _, _ =>
      return (.mappingStart properties, g.pass.goTo (.flowMappingKey true))
    | .blockSequenceStart, true, _ =>
      return (.sequenceStart properties, g.pass.goTo .blockSequenceEntry)
    | .blockMappingStart, true, _ =>
      return (.mappingStart properties, g.pass.goTo .blockMappingKey)
    | _, _, _ =>
      if properties.anchor.isSome ∨ properties.tag.isSome then
        return (.scalar properties "" true, g.resume)
      else .error t.position

/-- The node that comes next, or an omitted one if one of the tokens `stops` comes instead. -/
def nodeUnless (stops : List Token) (block indentless : Bool) (next : Expected) (g : Grammar) :
    Scan (Event × Grammar) := do
  let t ← g.peek
  if t.token ∈ stops then return (.omitted, g.goTo next)
  else (g.later next).node block indentless

def directives (g : Grammar) (version : Bool) : List PlacedToken → Scan Grammar
  | ⟨.version major minor, position⟩ :: tokens =>
    if version ∨ major ≠ 1 ∨ (minor ≠ 1 ∧ minor ≠ 2) then .error position
    else directives g true tokens
  | ⟨.tagHandle handle expansion, position⟩ :: tokens =>
    if g.handles.any fun h => h.1 = handle then .error position
    else directives { g with handles := g.handles ++ [(handle, expansion)] } version tokens
  | tokens => .ok { g with tokens, handles := g.handles ++ defaultHandles }

/-- A document after its directives, or the end of the stream. -/
def explicitDocument (g : Grammar) : Scan (Event × Grammar) := do
  let t ← g.peek
  if t.token = .streamEnd then return (.streamEnd, g)
  else
    let g ← g.directives false g.tokens
    let t ← g.peek
    if t.token = .documentStart then
      return (.documentStart, (g.pass.later .documentEnd).goTo .documentContent)
    else .error t.position

def isDirective : Token → Bool
  | .version .. | .tagHandle .. => true
  | _ => false

def firstDocument (g : Grammar) : Scan (Event × Grammar) := do
  let t ← g.peek
  if isDirective t.token ∨ t.token = .documentStart ∨ t.token = .streamEnd then
    g.explicitDocument
  else
    let g := { g with handles := defaultHandles }
    return (.documentStart, (g.later .documentEnd).goTo .blockNode)

/-- Further documents need a marker in front of them. -/
def document (g : Grammar) : Scan (Event × Grammar) :=
  { g with tokens := g.tokens.dropWhile fun t => t.token = Token.documentEnd }.explicitDocument

def documentContent (g : Grammar) : Scan (Event × Grammar) := do
  let t ← g.peek
  let stops : List Token := [.documentStart, .documentEnd, .streamEnd]
  if isDirective t.token ∨ t.token ∈ stops then
    return (.omitted, g.resume)
  else g.node true false

def documentEnd (g : Grammar) : Scan (Event × Grammar) := do
  let t ← g.peek
  let g := if t.token = .documentEnd then g.pass else g
  return (.documentEnd, { g with handles := [] }.goTo .document)

def blockSequenceEntry (g : Grammar) : Scan (Event × Grammar) := do
  let t ← g.peek
  match t.token with
  | .blockEntry => g.pass.nodeUnless [.blockEntry, .blockEnd] true false .blockSequenceEntry
  | .blockEnd => return (.sequenceEnd, g.pass.resume)
  | _ => .error t.position

def indentlessEntry (g : Grammar) : Scan (Event × Grammar) := do
  let t ← g.peek
  match t.token with
  | .blockEntry =>
    g.pass.nodeUnless [.blockEntry, .key, .value, .blockEnd] true false .indentlessEntry
  | _ => return (.sequenceEnd, g.resume)

def blockMappingKey (g : Grammar) : Scan (Event × Grammar) := do
  let t ← g.peek
  match t.token with
  | .key => g.pass.nodeUnless [.key, .value, .blockEnd] true true .blockMappingValue
  | .blockEnd => return (.mappingEnd, g.pass.resume)
  | _ => .error t.position

def blockMappingValue (g : Grammar) : Scan (Event × Grammar) := do
  let t ← g.peek
  match t.token with
  | .value => g.pass.nodeUnless [.key, .value, .blockEnd] true true .blockMappingKey
  | _ => return (.omitted, g.goTo .blockMappingKey)

/-- Between the entries of a flow collection stands a comma. -/
def entrySeparator (g : Grammar) (first : Bool) (close : Token) : Scan Grammar := do
  let t ← g.peek
  if first ∨ t.token = close then return g
  else if t.token = .flowEntry then return g.pass
  else .error t.position

def flowSequenceEntry (first : Bool) (g : Grammar) : Scan (Event × Grammar) := do
  let g ← g.entrySeparator first .flowSequenceEnd
  let t ← g.peek
  match t.token with
  | .flowSequenceEnd => return (.sequenceEnd, g.pass.resume)
  | .key => return (.mappingStart {}, g.pass.goTo .pairKey)
  | _ => (g.later (.flowSequenceEntry false)).node false false

/-- An omitted key takes the token that stands in its place. -/
def pairKey (g : Grammar) : Scan (Event × Grammar) := do
  let t ← g.peek
  let stops : List Token := [.value, .flowEntry, .flowSequenceEnd]
  if t.token ∈ stops then
    return (.omitted, g.pass.goTo .pairValue)
  else (g.later .pairValue).node false false

def pairValue (g : Grammar) : Scan (Event × Grammar) := do
  let t ← g.peek
  match t.token with
  | .value => g.pass.nodeUnless [.flowEntry, .flowSequenceEnd] false false .pairEnd
  | _ => return (.omitted, g.goTo .pairEnd)

def pairEnd (g : Grammar) : Scan (Event × Grammar) := do
  let _ ← g.peek
  return (.mappingEnd, g.goTo (.flowSequenceEntry false))

def flowMappingKey (first : Bool) (g : Grammar) : Scan (Event × Grammar) := do
  let g ← g.entrySeparator first .flowMappingEnd
  let t ← g.peek
  match t.token with
  | .flowMappingEnd => return (.mappingEnd, g.pass.resume)
  | .key => g.pass.nodeUnless [.value, .flowEntry, .flowMappingEnd] false false .flowMappingValue
  | _ => (g.later .flowMappingNoValue).node false false

def flowMappingValue (g : Grammar) : Scan (Event × Grammar) := do
  let t ← g.peek
  match t.token with
  | .value =>
    g.pass.nodeUnless [.flowEntry, .flowMappingEnd] false false (.flowMappingKey false)
  | _ => return (.omitted, g.goTo (.flowMappingKey false))

def flowMappingNoValue (g : Grammar) : Scan (Event × Grammar) := do
  let _ ← g.peek
  return (.omitted, g.goTo (.flowMappingKey false))

def step (g : Grammar) : Scan (Event × Grammar) :=
  match g.expected with
  | .firstDocument => g.firstDocument
  | .document => g.document
  | .documentContent => g.documentContent
  | .documentEnd => g.documentEnd
  | .blockNode => g.node true false
  | .blockSequenceEntry => g.blockSequenceEntry
  | .indentlessEntry => g.indentlessEntry
  | .blockMappingKey => g.blockMappingKey
  | .blockMappingValue => g.blockMappingValue
  | .flowSequenceEntry first => g.flowSequenceEntry first
  | .pairKey => g.pairKey
  | .pairValue => g.pairValue
  | .pairEnd => g.pairEnd
  | .flowMappingKey first => g.flowMappingKey first
  | .flowMappingValue => g.flowMappingValue
  | .flowMappingNoValue => g.flowMappingNoValue

end Grammar

end ComponentGraph.Yaml
