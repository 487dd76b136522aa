/-!
# Folded text

In a plain or a quoted scalar blanks around line breaks vanish, one break is read as a space, and
of several breaks the first vanishes. What counts is known only when the next character comes, so
blanks and breaks wait until then.
-/

set_option autoImplicit false

namespace ComponentGraph.Yaml

/-- A text with blanks and breaks that wait behind it. All lists stand last character first. -/
structure Folded where
  text : List Char := []
  blanks : List Char := []
  /-- Whether a line has ended since the last character. -/
  broken : Bool := false
  firstBreak : Option Char := none
  moreBreaks : List Char := []

namespace Folded

def blank (f : Folded) (c : Char) : Folded :=
  if f.broken then f else { f with blanks := c :: f.blanks }

def lineBreak (f : Folded) (c : Char) : Folded :=
  if f.broken then { f with moreBreaks := c :: f.moreBreaks }
  else { f with blanks := [], broken := true, firstBreak := some c }

def isWaiting (f : Folded) : Bool := f.broken || !f.blanks.isEmpty

/-- Lets what waits into the text. -/
def settle (f : Folded) : Folded :=
  let waiting :=
    if f.broken then
      match f.firstBreak with
      | some '\n' => if f.moreBreaks.isEmpty then [' '] else f.moreBreaks
      | some c => f.moreBreaks ++ [c]
      | none => f.moreBreaks
    else f.blanks
  { text := waiting ++ f.text }

def char (f : Folded) (c : Char) : Folded :=
  let f := f.settle
  { f with text := c :: f.text }

/-- A break that was escaped: what came before stays, and the line ends without a trace. -/
def joinLines (f : Folded) : Folded := { f.settle with broken := true }

def toString (f : Folded) : String := String.ofList f.text.reverse

end Folded

end ComponentGraph.Yaml
