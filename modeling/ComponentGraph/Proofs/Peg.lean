/-!
# Parsing expressions

An expression reads a part of the text ahead or fails. A repetition goes on for as long as its body
succeeds and gives nothing back, and looking ahead reads nothing. A run has at most one outcome.
-/

set_option autoImplicit false

namespace ComponentGraph

inductive Peg (ρ : Type)
  | start
  | ending
  | any
  | char (c : Char)
  | seq (first second : Peg ρ)
  | many (body : Peg ρ)
  | notAhead (body : Peg ρ)
  | rule (name : ρ) (body : Peg ρ)

namespace Peg

/-- What a run has read, what it leaves, and what was read for each rule, outer rules first. -/
structure Match (ρ : Type) where
  read : List Char
  rest : List Char
  found : List (ρ × List Char) := []

variable {ρ : Type}

/-- The outcomes of an expression between the text that has been read and the text ahead. -/
inductive Run : Peg ρ → List Char → List Char → Option (Match ρ) → Prop
  | start_ok (text : List Char) : Run start [] text (some ⟨[], text, []⟩)
  | start_fail (c : Char) (before text : List Char) : Run start (c :: before) text none
  | ending_ok (before : List Char) : Run ending before [] (some ⟨[], [], []⟩)
  | ending_fail (before : List Char) (c : Char) (text : List Char) :
    Run ending before (c :: text) none
  | any_ok (before : List Char) (c : Char) (text : List Char) :
    Run any before (c :: text) (some ⟨[c], text, []⟩)
  | any_fail (before : List Char) : Run any before [] none
  | char_ok (before : List Char) (c : Char) (text : List Char) :
    Run (char c) before (c :: text) (some ⟨[c], text, []⟩)
  | char_fail (before : List Char) {c : Char} {text : List Char} :
    text.head? ≠ some c → Run (char c) before text none
  | seq_ok {a b : Peg ρ} {before text : List Char} {m n : Match ρ} :
    Run a before text (some m) → Run b (before ++ m.read) m.rest (some n) →
    Run (seq a b) before text (some ⟨m.read ++ n.read, n.rest, m.found ++ n.found⟩)
  | seq_fail_first {a : Peg ρ} (b : Peg ρ) {before text : List Char} :
    Run a before text none → Run (seq a b) before text none
  | seq_fail_second {a b : Peg ρ} {before text : List Char} {m : Match ρ} :
    Run a before text (some m) → Run b (before ++ m.read) m.rest none →
    Run (seq a b) before text none
  | many_stop {a : Peg ρ} {before text : List Char} :
    Run a before text none → Run (many a) before text (some ⟨[], text, []⟩)
  | many_step {a : Peg ρ} {before text : List Char} {m n : Match ρ} :
    Run a before text (some m) → Run (many a) (before ++ m.read) m.rest (some n) →
    Run (many a) before text (some ⟨m.read ++ n.read, n.rest, m.found ++ n.found⟩)
  | notAhead_ok {a : Peg ρ} {before text : List Char} :
    Run a before text none → Run (notAhead a) before text (some ⟨[], text, []⟩)
  | notAhead_fail {a : Peg ρ} {before text : List Char} {m : Match ρ} :
    Run a before text (some m) → Run (notAhead a) before text none
  | rule_ok (name : ρ) {a : Peg ρ} {before text : List Char} {m : Match ρ} :
    Run a before text (some m) →
    Run (rule name a) before text (some ⟨m.read, m.rest, (name, m.read) :: m.found⟩)
  | rule_fail (name : ρ) {a : Peg ρ} {before text : List Char} :
    Run a before text none → Run (rule name a) before text none

variable {a q : Peg ρ} {before text rest : List Char}

theorem Run.unique {o o' : Option (Match ρ)} (h : Run a before text o)
    (h' : Run a before text o') : o = o' := by
  induction h generalizing o' with
  | start_ok | start_fail | ending_ok | ending_fail | any_ok | any_fail => cases h'; rfl
  | char_ok before c text =>
    cases h' with
    | char_ok => rfl
    | char_fail _ hhead => exact absurd rfl hhead
  | char_fail before hhead =>
    cases h' with
    | char_ok => exact absurd rfl hhead
    | char_fail => rfl
  | seq_ok _ _ iha ihb =>
    cases h' with
    | seq_ok ha hb =>
      obtain rfl := Option.some.inj (iha ha)
      obtain rfl := Option.some.inj (ihb hb)
      rfl
    | seq_fail_first _ ha => cases iha ha
    | seq_fail_second ha hb =>
      obtain rfl := Option.some.inj (iha ha)
      cases ihb hb
  | seq_fail_first _ _ iha =>
    cases h' with
    | seq_ok ha _ => cases iha ha
    | seq_fail_first | seq_fail_second => rfl
  | seq_fail_second _ _ iha ihb =>
    cases h' with
    | seq_ok ha hb =>
      obtain rfl := Option.some.inj (iha ha)
      cases ihb hb
    | seq_fail_first | seq_fail_second => rfl
  | many_stop _ ih =>
    cases h' with
    | many_stop => rfl
    | many_step ha _ => cases ih ha
  | many_step _ _ iha ihmany =>
    cases h' with
    | many_stop ha => cases iha ha
    | many_step ha hmany =>
      obtain rfl := Option.some.inj (iha ha)
      obtain rfl := Option.some.inj (ihmany hmany)
      rfl
  | notAhead_ok _ ih =>
    cases h' with
    | notAhead_ok => rfl
    | notAhead_fail ha => cases ih ha
  | notAhead_fail _ ih =>
    cases h' with
    | notAhead_ok ha => cases ih ha
    | notAhead_fail => rfl
  | rule_ok name _ ih =>
    cases h' with
    | rule_ok _ ha =>
      obtain rfl := Option.some.inj (ih ha)
      rfl
    | rule_fail _ ha => cases ih ha
  | rule_fail name _ ih =>
    cases h' with
    | rule_ok _ ha => cases ih ha
    | rule_fail => rfl

theorem Run.iff_eq {o o' : Option (Match ρ)} (h : Run a before text o) :
    Run a before text o' ↔ o' = o := by
  constructor
  · exact fun h' => h'.unique h
  · rintro rfl
    exact h

/-- Any one character, where the expression fails. -/
def anyBut (q : Peg ρ) : Peg ρ := seq (notAhead q) any

theorem Run.anyBut_ok {c : Char} (h : Run q before (c :: text) none) :
    Run (anyBut q) before (c :: text) (some ⟨[c], text, []⟩) :=
  .seq_ok (.notAhead_ok h) (.any_ok _ c text)

theorem Run.anyBut_fail {m : Match ρ} (h : Run q before text (some m)) :
    Run (anyBut q) before text none := .seq_fail_first _ (.notAhead_fail h)

theorem Run.anyBut_fail_nil (h : Run q before [] none) : Run (anyBut q) before [] none :=
  .seq_fail_second (.notAhead_ok h) (.any_fail _)

/-- Characters are read up to the first place where the expression does not fail, or to the end. -/
theorem Run.many_anyBut
    (hquiet : ∀ a c b, text = a ++ c :: b → Run q (before ++ a) (c :: (b ++ rest)) none)
    (hstop : Run (anyBut q) (before ++ text) rest none) :
    Run (many (anyBut q)) before (text ++ rest) (some ⟨text, rest, []⟩) := by
  induction text generalizing before with
  | nil =>
    rw [List.append_nil] at hstop
    exact .many_stop hstop
  | cons c text ih =>
    have hfirst : Run q before (c :: (text ++ rest)) none := by
      simpa using hquiet [] c text rfl
    refine .many_step (.anyBut_ok hfirst) (ih (fun a d b htext => ?_) ?_)
    · simpa using hquiet (c :: a) d b (congrArg (c :: ·) htext)
    · simpa using hstop

end Peg

end ComponentGraph
