import ComponentGraph.Fault
import ComponentGraph.Json.Token
import ComponentGraph.Json.Value

/-!
# Reading JSON

A machine takes the tokens of a text one by one. It keeps the arrays and the objects that are open
around the current place, the innermost first, and what may stand there.
-/

set_option autoImplicit false

namespace ComponentGraph.Json

def maxDepth : Nat := 127

/-- An array or an object with its contents so far; items stand last first. -/
inductive Frame
  | array (items : List Value)
  | object (members : NameMap Value) (key : String)

inductive Awaited
  | value
  | firstItem
  | firstKey
  | key
  | colon
  /-- A comma or the end of the innermost array or object; behind the outermost value, nothing. -/
  | separator

structure Machine where
  frames : List Frame := []
  awaited : Awaited := .value
  result : Value := .null

namespace Machine

/-- Takes a complete value into the innermost open array or object. -/
def complete (m : Machine) (v : Value) : Machine :=
  match m.frames with
  | [] => { m with awaited := .separator, result := v }
  | .array items :: frames =>
    { m with frames := .array (v :: items) :: frames, awaited := .separator }
  | .object members key :: frames =>
    { m with frames := .object (members.insert key v) key :: frames, awaited := .separator }

def openFrame (m : Machine) (frame : Frame) (awaited : Awaited) : Option Machine :=
  if m.frames.length < maxDepth then
    some { m with frames := frame :: m.frames, awaited := awaited }
  else none

def value (m : Machine) : Token → Option Machine
  | .null => some (m.complete .null)
  | .bool b => some (m.complete (.bool b))
  | .number n => some (m.complete (.number n))
  | .string s => some (m.complete (.string s))
  | .openBracket => m.openFrame (.array []) .firstItem
  | .openBrace => m.openFrame (.object ∅ "") .firstKey
  | _ => none

def close (m : Machine) (t : Token) : Option Machine :=
  match t, m.frames with
  | .closeBracket, .array items :: frames =>
    some ({ m with frames }.complete (.array items.reverse))
  | .closeBrace, .object members _ :: frames =>
    some ({ m with frames }.complete (.object members))
  | _, _ => none

def key (m : Machine) (t : Token) : Option Machine :=
  match t, m.frames with
  | .string name, .object members _ :: frames =>
    some { m with frames := .object members name :: frames, awaited := .colon }
  | _, _ => none

def separator (m : Machine) (t : Token) : Option Machine :=
  match t, m.frames with
  | .comma, .array _ :: _ => some { m with awaited := .value }
  | .comma, .object .. :: _ => some { m with awaited := .key }
  | _, _ => m.close t

def step (m : Machine) (t : Token) : Option Machine :=
  match m.awaited, t with
  | .value, t => m.value t
  | .firstItem, .closeBracket => m.close .closeBracket
  | .firstItem, t => m.value t
  | .firstKey, .closeBrace => m.close .closeBrace
  | .firstKey, t => m.key t
  | .key, t => m.key t
  | .colon, .colon => some { m with awaited := .value }
  | .colon, _ => none
  | .separator, t => m.separator t

def advance (m : Machine) (t : Token × Position) : Except Position Machine :=
  match m.step t.1 with
  | some m => .ok m
  | none => .error t.2

def result? (m : Machine) : Option Value :=
  match m.frames, m.awaited with
  | [], .separator => some m.result
  | _, _ => none

end Machine

def readAt (text : String) : Except Position Value := do
  let tokens ← Token.ofText text
  let m ← tokens.foldlM Machine.advance {}
  match m.result? with
  | some v => .ok v
  | none => .error (Position.start.advance text.toList)

def read (text : String) : Except Fault Value :=
  (readAt text).mapError fun position => ⟨.invalidDocument .json, some position⟩

end ComponentGraph.Json
