import ComponentGraph.DataType

/-!
# Pins

A pin sends or receives. It carries a signal or a configuration of some data type, or it is a
command with records of arguments, progress and result.
-/

set_option autoImplicit false

namespace ComponentGraph

inductive Direction
  | sends
  | receives
  deriving DecidableEq, Repr

namespace Direction

def isSend (d : Direction) : Bool := d == sends

def isReceive (d : Direction) : Bool := d == receives

end Direction

inductive PinKind
  | signal (type : DataType)
  | configuration (type : DataType)
  | command (arguments progress result : Fields)
  deriving DecidableEq

namespace PinKind

def emptyCommand : PinKind := command ∅ ∅ ∅

def name : PinKind → String
  | signal _ => "signal"
  | configuration _ => "configuration"
  | command .. => "command"

def dataType? : PinKind → Option DataType
  | signal type | configuration type => some type
  | command .. => none

end PinKind

structure Pin where
  direction : Direction
  kind : PinKind
  deriving DecidableEq

end ComponentGraph
