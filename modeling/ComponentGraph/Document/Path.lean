/-!
# Paths into a document

A path lists the keys and the indices that lead from the root to a node. It is spelled with a dot
between keys and with indices in brackets; the empty path is spelled `document`.
-/

set_option autoImplicit false

namespace ComponentGraph

inductive Step
  | key (name : String)
  | index (i : Nat)
  deriving DecidableEq, Repr

abbrev Path : Type := List Step

namespace Step

/-- The spelling of a step at the head of a path. -/
def head : Step → String
  | key name => name
  | index i => "[" ++ toString i ++ "]"

/-- The spelling of a step that follows others. -/
def tail : Step → String
  | key name => "." ++ name
  | index i => "[" ++ toString i ++ "]"

end Step

namespace Path

def root : Path := []

def key (path : Path) (name : String) : Path := path ++ [.key name]

def index (path : Path) (i : Nat) : Path := path ++ [.index i]

def spell : Path → String
  | [] => "document"
  | step :: steps => steps.foldl (fun text s => text ++ s.tail) step.head

end Path

end ComponentGraph
