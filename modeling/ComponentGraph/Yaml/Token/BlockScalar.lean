import ComponentGraph.Decimal
import ComponentGraph.Yaml.Token

/-!
# Block scalars

The lines of a block scalar stand below its indicator, indented alike. A literal scalar keeps its
line breaks; a folded one reads a break between two lines that start with no blank as a space.
What becomes of the breaks at the end depends on the header: all are kept, one, or none.
-/

set_option autoImplicit false

namespace ComponentGraph.Yaml.Token

inductive Chomping
  | clip
  | strip
  | keep
  deriving DecidableEq

/-- What stands behind the indicator of a block scalar. -/
structure BlockHeader where
  chomping : Chomping := .clip
  increment : Option Nat := none

def chomping? (c : Cursor) : Option Chomping :=
  match c.peek? 0 with
  | some '+' => some .keep
  | some '-' => some .strip
  | _ => none

/-- A digit for the indentation, which may not be zero. -/
def increment (c : Cursor) : Scan (Option Nat × Cursor) :=
  match (c.peek? 0).filter Char.isDigit with
  | none => .ok (none, c)
  | some d => if d = '0' then .error c.position else .ok (some (Decimal.digitValue d), c.skip)

/-- The two parts of a header may come in either order. -/
def blockHeader (c : Cursor) : Scan (BlockHeader × Cursor) :=
  match chomping? c with
  | some chomping => do
    let (increment, c) ← increment c.skip
    return ({ chomping, increment }, c)
  | none => do
    let (increment, c) ← increment c
    match increment, chomping? c with
    | some _, some chomping => return ({ chomping, increment }, c.skip)
    | _, _ => return ({ increment }, c)

/-- Passes empty lines and the spaces before the next line; `indent` is zero while the
indentation is not known. Gives the breaks, last first, and the widest indentation. -/
def blockBreaks (indent : Nat) : Nat → Cursor → List Char → Nat → Scan (List Char × Nat × Cursor)
  | 0, c, breaks, widest => .ok (breaks, widest, c)
  | fuel + 1, c, breaks, widest =>
    let spaces := (c.rest.takeWhile (· = ' ')).length
    let c := c.skip (if indent = 0 then spaces else min spaces (indent - c.column))
    let widest := max widest c.column
    if (indent = 0 ∨ c.column < indent) ∧ c.at? '\t' then .error c.position
    else
      match c.break? with
      | none => .ok (breaks, widest, c)
      | some b => blockBreaks indent fuel c.skipBreak (b :: breaks) widest

/-- A block scalar while its lines are read; texts stand last character first. -/
structure BlockText where
  text : List Char := []
  /-- The break that ended the last line. -/
  leadingBreak : Option Char := none
  /-- The breaks of the empty lines after it. -/
  trailingBreaks : List Char := []
  /-- Whether the last line starts with a blank. -/
  leadingBlank : Bool := false

namespace BlockText

/-- The text up to the start of a new line, which starts with a blank or does not. -/
def nextLine (b : BlockText) (literal blank : Bool) : List Char :=
  if !literal && b.leadingBreak = some '\n' && !b.leadingBlank && !blank then
    if b.trailingBreaks.isEmpty then ' ' :: b.text else b.trailingBreaks ++ b.text
  else b.trailingBreaks ++ b.leadingBreak.toList ++ b.text

def finish (b : BlockText) (chomping : Chomping) : String :=
  let text := if chomping = .strip then b.text else b.leadingBreak.toList ++ b.text
  let text := if chomping = .keep then b.trailingBreaks ++ text else text
  String.ofList text.reverse

end BlockText

/-- The lines that are indented by `indent`. The text is not longer than `bound`. -/
def blockLines (literal : Bool) (indent bound : Nat) :
    Nat → Cursor → BlockText → Scan (BlockText × Cursor)
  | 0, c, b => .ok (b, c)
  | fuel + 1, c, b =>
    if c.column ≠ indent ∨ c.atEnd then .ok (b, c)
    else do
      let blank := c.blankAt 0
      let line := c.rest.takeWhile fun x => !isBreak x
      let text := line.reverse ++ b.nextLine literal blank
      let c := c.skip line.length
      let leadingBreak := c.break?
      let (trailingBreaks, _, c) ← blockBreaks indent (bound + 1) c.skipBreak [] 0
      let b := { text, leadingBreak, trailingBreaks, leadingBlank := blank }
      blockLines literal indent bound fuel c b

/-- The block scalar whose indicator stands here, inside of a block indented by `parent`. -/
def scanBlockScalar (literal : Bool) (parent : Int) (bound : Nat) (start : Cursor) :
    Scan (Token × Cursor) := do
  let (header, c) ← blockHeader start.skip
  match c.restOfLine? with
  | none => .error c.position
  | some c =>
    let base := (max parent 0).toNat
    let declared := (header.increment.map fun n => base + n).getD 0
    let (trailingBreaks, widest, c) ← blockBreaks declared (bound + 1) c [] 0
    let least := (max (parent + 1) 1).toNat
    let indent := if declared = 0 then max widest least else declared
    let (b, c) ← blockLines literal indent bound (bound + 1) c { trailingBreaks }
    return (.scalar (b.finish header.chomping) false, c)

end ComponentGraph.Yaml.Token
