import ComponentGraph.Decimal
import ComponentGraph.Yaml.Token.Tag

/-!
# Directives

A line that starts with `%` declares the version of the text or the expansion of a tag handle.
There are no other directives.
-/

set_option autoImplicit false

namespace ComponentGraph.Yaml.Token

/-- A number of one to nine digits. -/
def versionNumber (c : Cursor) : Scan (Nat × Cursor) :=
  let digits := c.rest.takeWhile Char.isDigit
  if digits = [] ∨ 9 < digits.length then .error c.position
  else .ok (Decimal.natOfDigits digits, c.skip digits.length)

def versionDirective (c : Cursor) : Scan (Token × Cursor) := do
  let (major, c) ← versionNumber (c.skipWhile isBlank)
  if !c.at? '.' then .error c.position
  else
    let (minor, c) ← versionNumber c.skip
    return (.version major minor, c)

def tagDirective (c : Cursor) : Scan (Token × Cursor) := do
  let c := c.skipWhile isBlank
  if !c.at? '!' then .error c.position
  else
    let (name, c) := handle c
    if name.getLast? ≠ some '!' ∨ !c.blankAt 0 then .error c.position
    else
      let (expansion, c) ← nonEmptyUri true (c.skipWhile isBlank)
      if c.spaceOrEndAt 0 then return (.tagHandle (TagText.ofChars name) expansion, c)
      else .error c.position

def scanDirective (start : Cursor) : Scan (Token × Cursor) := do
  let c := start.skip
  let name := c.rest.takeWhile isNameChar
  let c := c.skip name.length
  if !c.spaceOrEndAt 0 then .error c.position
  else
    let (t, c) ←
      if name = "YAML".toList then versionDirective c
      else if name = "TAG".toList then tagDirective c
      else .error c.position
    match c.restOfLine? with
    | some c => return (t, c)
    | none => .error c.position

end ComponentGraph.Yaml.Token
