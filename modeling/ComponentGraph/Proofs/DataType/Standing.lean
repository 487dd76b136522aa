import ComponentGraph.Proofs.DataType.Bounds
import ComponentGraph.Proofs.DataType.Interleaving
import ComponentGraph.Proofs.Token.Exact

/-!
# Where a scanner stands

Between operations, what a scanner has still to read is an end of the text, and both of its counters
are right: `here` for the next character, also when that one was put back, and `position` for the
next one to be pulled. Each operation runs as well when putting back is checked.
-/

set_option autoImplicit false

namespace ComponentGraph.Scanner

open DataType Reading

/-- The held character and the rest are an end of the text. The counters are those of the text that
was read, and of the text that was pulled. -/
structure Stands (text : List Char) (s : Scanner) : Prop where
  suffix : (s.held.map Prod.fst).toList ++ s.rest <:+ text
  here_eq : ∀ before, text = before ++ ((s.held.map Prod.fst).toList ++ s.rest) →
    s.here = .behind before
  position_eq : ∀ before, text = before ++ s.rest → s.position = .behind before

theorem unread_eq (s : Scanner) : s.unread = (s.held.map Prod.fst).toList ++ s.rest := by
  rw [unread]
  split <;> rename_i h <;> rw [h] <;> rfl

theorem StandsAfter.stands {text before : List Char} {s : Scanner}
    (h : s.StandsAfter text before) : s.Stands text where
  suffix := by
    rw [← unread_eq, h.text_eq]
    exact List.suffix_append _ _
  here_eq before' hbefore := by
    rw [← unread_eq, h.text_eq] at hbefore
    rw [h.here_eq, Position.start_advance, List.append_cancel_right hbefore]
  position_eq before' hbefore := by
    obtain ⟨rest, held, position⟩ := s
    have hhere := h.here_eq
    rw [Position.start_advance] at hhere
    cases held with
    | none =>
      have htext : text = before ++ rest := h.text_eq
      rw [← List.append_cancel_right (htext.symm.trans hbefore)]
      exact hhere
    | some c =>
      -- the two counters differ by the character that was put back
      have htext : text = before ++ c.1 :: rest := h.text_eq
      have hposition : position = c.2.after c.1 := h.position_eq c rfl
      have hheld : c.2 = .behind before := hhere
      rw [List.append_cons] at htext
      rw [← List.append_cancel_right (htext.symm.trans hbefore), Position.behind_concat, ← hheld]
      exact hposition

theorem StandsAfter.perform {text before : List Char} {s : Scanner}
    (h : s.StandsAfter text before) (op : Operation) :
    ∃ before', (s.perform op).StandsAfter text before' := by
  cases op with
  | read | next | expect =>
    obtain ⟨blanks, -, -, hread⟩ := h.read
    exact ⟨_, hread⟩
  | type =>
    rw [Scanner.perform]
    rcases (read_meets s).yields_or_fails with
      ⟨-, -, ls, hls, -⟩ | ⟨-, -, p, m, -, hp, -, -, -, hstop⟩
    · exact hls.standsAfter h
    · obtain ⟨before', hm⟩ := hp.standsAfter h
      obtain ⟨blanks, -, -, hread⟩ := hm.read
      exact ⟨_, hstop ▸ hread⟩

theorem StandsAfter.performAll {text before : List Char} {s : Scanner}
    (h : s.StandsAfter text before) (ops : List Operation) :
    ∃ before', (s.performAll ops).StandsAfter text before' := by
  induction ops generalizing s before with
  | nil => exact ⟨before, h⟩
  | cons op ops ih =>
    obtain ⟨before', h'⟩ := h.perform op
    exact ih h'

/-- The scanner that is left, if each character is put back where there is none. -/
def perform? (s : Scanner) : Operation → Option Scanner
  | .read | .next | .expect _ => s.read?.map Prod.snd
  | .type => (readWatched.run.run ⟨s, [], []⟩).map fun outcome => outcome.2.scanner

def performAll? (s : Scanner) (ops : List Operation) : Option Scanner := ops.foldlM perform? s

theorem perform?_eq (s : Scanner) (op : Operation) : s.perform? op = some (s.perform op) := by
  cases op with
  | read | next | expect =>
    rw [perform?, read?_eq]
    rfl
  | type =>
    obtain ⟨ts, ds, hrun, -⟩ := readWatched_follows s [] []
    rw [perform?, hrun]
    rfl

theorem performAll?_eq (s : Scanner) (ops : List Operation) :
    s.performAll? ops = some (s.performAll ops) := by
  induction ops generalizing s with
  | nil => rfl
  | cons op ops ih =>
    rw [performAll?, List.foldlM_cons, perform?_eq]
    exact ih (s.perform op)

/-- Nothing that is done with the scanner of a text loses the place in it, and no character is ever
put back in the place of another. -/
theorem performAll_stands (text : String) (ops : List Operation) :
    (ofString text).performAll? ops = some ((ofString text).performAll ops) ∧
      ((ofString text).performAll ops).Stands text.toList := by
  constructor
  · exact performAll?_eq _ ops
  · obtain ⟨before, h⟩ := (standsAfter_ofString text).performAll ops
    exact h.stands

example : (ofString "int\n>").performAll [.read] = ⟨['>'], some ('\n', ⟨1, 4⟩), ⟨2, 1⟩⟩ := by
  decide +kernel

end ComponentGraph.Scanner
