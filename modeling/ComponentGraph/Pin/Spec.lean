import ComponentGraph.Separated
import ComponentGraph.Pin
import ComponentGraph.DataType.Parser

/-!
# Pin specs

A pin spec is written `keyword(payload)`. The keyword is all that stands before the first
parenthesis, and the payload goes up to the closing parenthesis at the very end. The payload of a
signal is a type expression; the payload of a command is not looked at.
-/

set_option autoImplicit false

namespace ComponentGraph.Pin

/-- The keyword and the payload of a text of the form `keyword(payload)`. -/
def envelope? (text : List Char) : Option (List Char × List Char) :=
  match Separated.cut? '(' text with
  | none => none
  | some (keyword, after) =>
    if keyword ≠ [] ∧ after.getLast? = some ')' then some (keyword, after.dropLast) else none

/-- What is missing in a text that is no pin spec. -/
def malformed (text : String) : Cause :=
  match text.toList with
  | [] | '(' :: _ => .pinKeywordExpected text
  | _ => .pinPayloadExpected text

/-- A signal pin. Errors point into the whole spec, where the payload starts at `origin`. -/
def signal (direction : Direction) (origin : Position) (payload : String) :
    Except Fault Pin :=
  match DataType.parse payload with
  | .ok type => .ok ⟨direction, .signal type⟩
  | .error e => .error (e.within origin)

def ofSpec (text : String) : Except Fault Pin :=
  match envelope? text.toList with
  | none => .error ⟨malformed text, some .start⟩
  | some (keyword, payload) =>
    let origin := Position.start.advance (keyword ++ ['('])
    let payload := String.ofList payload
    let keyword := String.ofList keyword
    if keyword = "publish-signal" then signal .sends origin payload
    else if keyword = "consume-signal" then signal .receives origin payload
    else if keyword = "send-command" then .ok ⟨.sends, .emptyCommand⟩
    else if keyword = "receive-command" then .ok ⟨.receives, .emptyCommand⟩
    else .error ⟨.unknownPinType keyword, some .start⟩

end ComponentGraph.Pin
