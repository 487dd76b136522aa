/-!
# Positions in a text

A position is a line and a column, both counted from one; columns count characters. A line ends
after a newline and nowhere else.
-/

set_option autoImplicit false

namespace ComponentGraph

structure Position where
  line : Nat
  column : Nat
  deriving DecidableEq, Repr

namespace Position

def start : Position := ⟨1, 1⟩

def after (p : Position) (c : Char) : Position :=
  if c = '\n' then ⟨p.line + 1, 1⟩ else ⟨p.line, p.column + 1⟩

def advance (p : Position) (text : List Char) : Position := text.foldl after p

/-- The place, in a whole text, of a position counted from `origin` in that text. -/
def within (p origin : Position) : Position :=
  ⟨p.line + origin.line - 1, if p.line = 1 then p.column + origin.column - 1 else p.column⟩

@[simp] theorem advance_nil (p : Position) : p.advance [] = p := rfl

@[simp] theorem advance_cons (p : Position) (c : Char) (text : List Char) :
    p.advance (c :: text) = (p.after c).advance text := rfl

theorem advance_append (p : Position) (a b : List Char) :
    p.advance (a ++ b) = (p.advance a).advance b := List.foldl_append

end Position

end ComponentGraph
