import ComponentGraph.Position
import ComponentGraph.Document.Kind
import ComponentGraph.Document.Path

/-!
# Errors

An error is a cause, with a position when the offending text is known. Shape errors of a document
tree and errors of binding texts carry none: a tree does not remember where its nodes stood.
-/

set_option autoImplicit false

namespace ComponentGraph

inductive Format
  | yaml
  | json
  deriving DecidableEq, Repr

def Format.name : Format → String
  | .yaml => "YAML"
  | .json => "JSON"

inductive Cause
  | unexpectedToken (text : String)
  | nestedTooDeep (limit : Nat)
  | unknownType (name : String)
  | duplicateField (name : String)
  | pinKeywordExpected (spec : String)
  | pinPayloadExpected (spec : String)
  | unknownPinType (keyword : String)
  | unexpectedBindingTarget (text : String)
  | unexpectedPinBinding (text : String)
  | wrongKind (expected : Kind) (path : Path) (found : Kind)
  | notAPair (description : String)
  | invalidDocument (format : Format)
  deriving DecidableEq, Repr

def Cause.message : Cause → String
  | .unexpectedToken text => s!"Unexpected token: {text}"
  | .nestedTooDeep limit => s!"Type expression nested deeper than {limit}"
  | .unknownType name => s!"Unknown type {name}"
  | .duplicateField name => s!"Duplicate record field: {name}"
  | .pinKeywordExpected spec => s!"Malformed pin spec `{spec}`: expected a pin keyword"
  | .pinPayloadExpected spec =>
    s!"Malformed pin spec `{spec}`: expected `<keyword>(<payload>)`"
  | .unknownPinType keyword => s!"Unknown pin type: {keyword}"
  | .unexpectedBindingTarget text => s!"Unexpected binding target: {text}"
  | .unexpectedPinBinding text => s!"Unexpected pin binding: {text}"
  | .wrongKind expected path found =>
    s!"Expected {expected.word} for {path.spell}, got {found.word}"
  | .notAPair description => s!"Expected list of two for binding, got: {description}"
  | .invalidDocument format => s!"Invalid {format.name} document"

structure Fault where
  cause : Cause
  position : Option Position := none
  deriving DecidableEq, Repr

namespace Fault

def message (e : Fault) : String := e.cause.message

/-- The error as seen from a text in which the faulty text starts at `origin`. -/
def within (e : Fault) (origin : Position) : Fault :=
  { e with position := e.position.map fun p => p.within origin }

end Fault

end ComponentGraph
