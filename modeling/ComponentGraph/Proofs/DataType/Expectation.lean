import ComponentGraph.Proofs.DataType.Grammar

/-!
# What may come next in a type expression

`Awaits` follows the grammar through a beginning of an expression and names what is expected
behind it. An expectation says which lexemes may come next, and what is wrong with any other
token.
-/

set_option autoImplicit false

namespace ComponentGraph

theorem TypeWord.ofText?_eq_some_iff {text : String} {w : TypeWord} :
    ofText? text = some w ↔ text = w.text := by
  constructor
  · intro h
    have hw := List.find?_some h
    simpa [eq_comm] using hw
  · rintro rfl
    cases w <;> rfl

namespace DataType

open Lexeme

inductive Expectation
  /-- A type inside of so many containers, or the closing mark of an empty record. -/
  | type (depth : Nat) (orClose : Bool)
  /-- A name for a field, other than those that the record has. -/
  | fieldName (names : List String)
  | marks (cs : List Char)
  | ending

namespace Expectation

def Admits : Expectation → Lexeme → Prop
  | type depth orClose, l =>
    (∃ w : TypeWord, l = word w.text ∧ (w.isContainer = true → depth < maxDepth)) ∨
    (orClose = true ∧ l = mark '>')
  | fieldName names, l => ∃ name, name ∉ names ∧ l = word name
  | marks cs, l => ∃ c ∈ cs, l = mark c
  | ending, l => l = .ending

/-- What is wrong with a token that is not admitted. -/
def complaint (e : Expectation) (t : Token) : Cause :=
  match e with
  | type _ _ =>
    if t.kind = .identifier then
      match TypeWord.ofText? t.text with
      | none => .unknownType t.text
      | some w => if w.isContainer then .nestedTooDeep maxDepth else .unexpectedToken t.describe
    else .unexpectedToken t.describe
  | fieldName _ =>
    if t.kind = .identifier then .duplicateField t.text else .unexpectedToken t.describe
  | marks _ | ending => .unexpectedToken t.describe

def fault (e : Expectation) (t : Token) : Fault := ⟨e.complaint t, some t.position⟩

/-- How the message of an unexpected token names it. -/
def met (t : Token) : String := if t.kind = .endOfInput then "end of input" else t.text

def message (e : Expectation) (t : Token) : String :=
  match e with
  | type _ _ =>
    if t.kind = .identifier ∧ t.text ∈ ["list", "map", "record"] then
      "Type expression nested deeper than 128"
    else if t.kind = .identifier ∧ t.text ∉ ["string", "int", "bool"] then
      "Unknown type " ++ t.text
    else "Unexpected token: " ++ met t
  | fieldName _ =>
    if t.kind = .identifier then "Duplicate record field: " ++ t.text
    else "Unexpected token: " ++ met t
  | marks _ | ending => "Unexpected token: " ++ met t

theorem describe_eq_met (t : Token) : t.describe = met t := by
  obtain ⟨kind, text, position⟩ := t
  cases kind <;> rfl

theorem message_unexpectedToken (t : Token) :
    (Cause.unexpectedToken t.describe).message = "Unexpected token: " ++ met t :=
  congrArg ("Unexpected token: " ++ ·) (describe_eq_met t)

theorem message_nestedTooDeep :
    (Cause.nestedTooDeep maxDepth).message = "Type expression nested deeper than 128" := by
  decide

theorem message_unknownType (name : String) :
    (Cause.unknownType name).message = "Unknown type " ++ name := rfl

theorem message_duplicateField (name : String) :
    (Cause.duplicateField name).message = "Duplicate record field: " ++ name := rfl

theorem not_mem_words {text : String} (h : TypeWord.ofText? text = none) :
    text ∉ ["list", "map", "record"] ∧ text ∉ ["string", "int", "bool"] := by
  have hne : ∀ w : TypeWord, text ≠ w.text := by
    rintro w rfl
    cases h.symm.trans (TypeWord.ofText?_eq_some_iff.mpr rfl)
  simp only [List.mem_cons, List.not_mem_nil, or_false, not_or]
  exact ⟨⟨hne .list, hne .map, hne .record⟩, hne .string, hne .int, hne .bool⟩

theorem isContainer_iff (w : TypeWord) :
    w.isContainer = true ↔ w.text ∈ ["list", "map", "record"] := by
  cases w <;> decide

theorem isContainer_iff_not_scalar (w : TypeWord) :
    w.isContainer = true ↔ w.text ∉ ["string", "int", "bool"] := by
  cases w <;> decide

theorem message_complaint (e : Expectation) (t : Token) :
    (e.complaint t).message = e.message t := by
  unfold Expectation.message
  cases e with
  | type depth orClose =>
    by_cases hkind : t.kind = .identifier
    · cases hw : TypeWord.ofText? t.text with
      | none =>
        obtain ⟨hcontainer, hscalar⟩ := not_mem_words hw
        have hcontainer : ¬ (t.kind = .identifier ∧ t.text ∈ ["list", "map", "record"]) :=
          fun h => hcontainer h.2
        rw [if_neg hcontainer, if_pos ⟨hkind, hscalar⟩]
        simp only [complaint, hkind, hw, if_true, message_unknownType]
      | some w =>
        have htext := TypeWord.ofText?_eq_some_iff.mp hw
        have hcomplaint : (type depth orClose).complaint t =
            if w.isContainer then .nestedTooDeep maxDepth else .unexpectedToken t.describe := by
          simp only [complaint, hkind, hw, if_true]
        rw [hcomplaint, htext]
        by_cases hw : w.isContainer = true
        · rw [if_pos hw, if_pos ⟨hkind, (isContainer_iff w).mp hw⟩]
          exact message_nestedTooDeep
        · have hcontainer : ¬ (t.kind = .identifier ∧ w.text ∈ ["list", "map", "record"]) :=
            fun h => hw ((isContainer_iff w).mpr h.2)
          have hunknown : ¬ (t.kind = .identifier ∧ w.text ∉ ["string", "int", "bool"]) :=
            fun h => hw ((isContainer_iff_not_scalar w).mpr h.2)
          rw [if_neg hw, if_neg hcontainer, if_neg hunknown]
          exact message_unexpectedToken t
    · have hword : ∀ q : Prop, ¬ (t.kind = .identifier ∧ q) := fun _ h => hkind h.1
      rw [if_neg (hword _), if_neg (hword _)]
      simp only [complaint, hkind, if_false, message_unexpectedToken]
  | fieldName names =>
    simp only [complaint]
    split
    · exact message_duplicateField t.text
    · exact message_unexpectedToken t
  | marks | ending => exact message_unexpectedToken t

end Expectation

mutual

/-- The lexemes begin a type inside of so many containers, and behind them this is expected. -/
inductive Awaits : Nat → List Lexeme → Expectation → Prop
  | type {depth : Nat} : Awaits depth [] (.type depth false)
  | opening {depth : Nat} {w : TypeWord} :
    w.isContainer = true → depth < maxDepth → Awaits depth [word w.text] (.marks ['<'])
  | listElement {depth : Nat} {p : List Lexeme} {e : Expectation} :
    depth < maxDepth → Awaits (depth + 1) p e → Awaits depth (word "list" :: mark '<' :: p) e
  | listClose {depth : Nat} {ls : List Lexeme} {element : DataType} :
    Fits (depth + 1) ls element → Awaits depth (word "list" :: mark '<' :: ls) (.marks ['>'])
  | mapKey {depth : Nat} {p : List Lexeme} {e : Expectation} :
    depth < maxDepth → Awaits (depth + 1) p e → Awaits depth (word "map" :: mark '<' :: p) e
  | mapComma {depth : Nat} {ks : List Lexeme} {key : DataType} :
    Fits (depth + 1) ks key → Awaits depth (word "map" :: mark '<' :: ks) (.marks [','])
  | mapValue {depth : Nat} {ks p : List Lexeme} {key : DataType} {e : Expectation} :
    Fits (depth + 1) ks key → Awaits (depth + 1) p e →
    Awaits depth (word "map" :: mark '<' :: (ks ++ mark ',' :: p)) e
  | mapClose {depth : Nat} {ks vs : List Lexeme} {key value : DataType} :
    Fits (depth + 1) ks key → Fits (depth + 1) vs value →
    Awaits depth (word "map" :: mark '<' :: (ks ++ mark ',' :: vs)) (.marks ['>'])
  | recordFields {depth : Nat} {p : List Lexeme} {e : Expectation} :
    depth < maxDepth → AwaitsFields (depth + 1) true [] p e →
    Awaits depth (word "record" :: mark '<' :: p) e

/-- The lexemes begin the fields of a record, at its start or after fields with these names, and
behind them this is expected. -/
inductive AwaitsFields : Nat → Bool → List String → List Lexeme → Expectation → Prop
  | start {depth : Nat} {names : List String} :
    AwaitsFields depth true names [] (.type depth true)
  | type {depth : Nat} {start : Bool} {names : List String} {p : List Lexeme} {e : Expectation} :
    (start = true → p ≠ []) → Awaits depth p e → AwaitsFields depth start names p e
  | name {depth : Nat} {start : Bool} {names : List String} {ls : List Lexeme} {type : DataType} :
    Fits depth ls type → AwaitsFields depth start names ls (.fieldName names)
  | separator {depth : Nat} {start : Bool} {names : List String} {ls : List Lexeme}
      {name : String} {type : DataType} :
    Fits depth ls type → name ∉ names →
    AwaitsFields depth start names (ls ++ [word name]) (.marks [',', '>'])
  | more {depth : Nat} {start : Bool} {names : List String} {ls p : List Lexeme} {name : String}
      {type : DataType} {e : Expectation} :
    Fits depth ls type → name ∉ names → AwaitsFields depth false (name :: names) p e →
    AwaitsFields depth start names (ls ++ word name :: mark ',' :: p) e

end

theorem Awaits.head {depth : Nat} {p : List Lexeme} {e : Expectation} (h : Awaits depth p e)
    (hp : p ≠ []) : ∃ (w : TypeWord) (rest : List Lexeme), p = word w.text :: rest := by
  cases h with
  | type => exact absurd rfl hp
  | opening => exact ⟨_, _, rfl⟩
  | listElement | listClose => exact ⟨.list, _, rfl⟩
  | mapKey | mapComma | mapValue | mapClose => exact ⟨.map, _, rfl⟩
  | recordFields => exact ⟨.record, _, rfl⟩

/-- What is expected behind the beginning of a whole text. -/
inductive Expects : List Lexeme → Expectation → Prop
  | inside {p : List Lexeme} {e : Expectation} : Awaits 0 p e → Expects p e
  | behind {ls : List Lexeme} {type : DataType} : Fits 0 ls type → Expects ls .ending

mutual

/-- Each container that is open was opened by a mark that is not closed yet. -/
theorem Awaits.depth_of_type {depth d : Nat} {p : List Lexeme} {e : Expectation} {c : Bool}
    (h : Awaits depth p e) (hd : depth ≤ maxDepth) (he : e = .type d c) :
    d ≤ maxDepth ∧ d + p.count (mark '>') = depth + p.count (mark '<') := by
  match h with
  | .type =>
    cases he
    exact ⟨hd, rfl⟩
  | .opening .. | .listClose .. | .mapComma .. | .mapClose .. => cases he
  | .listElement hd' hp | .mapKey hd' hp =>
    obtain ⟨hle, hcount⟩ := hp.depth_of_type hd' he
    refine ⟨hle, ?_⟩
    simp
    omega
  | .mapValue hfit hp =>
    have hkey := hfit.derives.balanced
    obtain ⟨hle, hcount⟩ := hp.depth_of_type (Nat.le_of_add_right_le hfit.depth_le) he
    refine ⟨hle, ?_⟩
    simp
    omega
  | .recordFields hd' hp =>
    obtain ⟨hle, hcount⟩ := hp.depth_of_type hd' he
    refine ⟨hle, ?_⟩
    simp
    omega

theorem AwaitsFields.depth_of_type {depth d : Nat} {start : Bool} {names : List String}
    {p : List Lexeme} {e : Expectation} {c : Bool} (h : AwaitsFields depth start names p e)
    (hd : depth ≤ maxDepth) (he : e = .type d c) :
    d ≤ maxDepth ∧ d + p.count (mark '>') = depth + p.count (mark '<') := by
  match h with
  | .start =>
    cases he
    exact ⟨hd, rfl⟩
  | .type _ hp => exact hp.depth_of_type hd he
  | .name _ | .separator .. => cases he
  | .more hfit _ hp =>
    have hfield := hfit.derives.balanced
    obtain ⟨hle, hcount⟩ := hp.depth_of_type hd he
    refine ⟨hle, ?_⟩
    simp
    omega

end

theorem Expects.depth_of_type {p : List Lexeme} {d : Nat} {c : Bool} (h : Expects p (.type d c)) :
    d ≤ maxDepth ∧ p.count (mark '<') = p.count (mark '>') + d := by
  cases h with
  | inside hawaits =>
    obtain ⟨hle, hcount⟩ := hawaits.depth_of_type (Nat.zero_le _) rfl
    exact ⟨hle, by omega⟩

end DataType

end ComponentGraph
