import ComponentGraph.Token.Scanner

/-!
# Reading with a checked put-back

There is room for one character that was put back. Here putting back fails when that room is taken,
and reading fails with it. No reading does: a character is put back only right behind a pull, and
pulling empties the room first.
-/

set_option autoImplicit false

namespace ComponentGraph.Scanner

def putBack? (s : Scanner) (c : Char × Position) : Option Scanner :=
  if s.held = none then some (s.putBack c) else none

def word? (s : Scanner) : Option (List Char × Scanner) :=
  match _h : s.pull with
  | none => some ([], s)
  | some (c, s') =>
    if isWordChar c.1 then s'.word?.map fun (more, stop) => (c.1 :: more, stop)
    else (s'.putBack? c).map fun stop => ([], stop)
termination_by s.unread.length
decreasing_by simp [unread_of_pull _h]

def read? (s : Scanner) : Option (Token × Scanner) :=
  match _h : s.pull with
  | none => some (⟨.endOfInput, "", s.here⟩, s)
  | some (c, s') =>
    if isBlank c.1 then s'.read?
    else if isWordStart c.1 then
      s'.word?.map fun (more, stop) => (⟨.identifier, String.ofList (c.1 :: more), c.2⟩, stop)
    else some (⟨.ofMark c.1, c.1.toString, c.2⟩, s')
termination_by s.unread.length
decreasing_by simp [unread_of_pull _h]

section Pulled

variable {s s' : Scanner} {c : Char × Position}

theorem putBack?_of_pull (h : s.pull = some (c, s')) : s'.putBack? c = some (s'.putBack c) :=
  if_pos (held_of_pull h)

theorem word_of_pull (h : s.pull = some (c, s')) :
    s.word = if isWordChar c.1 then (c.1 :: s'.word.1, s'.word.2) else ([], s'.putBack c) := by
  rw [word]
  split
  · cases h.symm.trans ‹_›
  · rename_i hp
    cases h.symm.trans hp
    rfl

theorem read_of_pull (h : s.pull = some (c, s')) :
    s.read =
      if isBlank c.1 then s'.read
      else if isWordStart c.1 then
        (⟨.identifier, String.ofList (c.1 :: s'.word.1), c.2⟩, s'.word.2)
      else (⟨.ofMark c.1, c.1.toString, c.2⟩, s') := by
  rw [read]
  split
  · cases h.symm.trans ‹_›
  · rename_i hp
    cases h.symm.trans hp
    rfl

end Pulled

theorem word?_eq (s : Scanner) : s.word? = some s.word := by
  fun_induction word? s with
  | case1 s h =>
    rw [word]
    split
    · rfl
    · cases h.symm.trans ‹_›
  | case2 s c s' h hc ih => rw [ih, word_of_pull h, if_pos hc, Option.map_some]
  | case3 s c s' h hc => rw [putBack?_of_pull h, word_of_pull h, if_neg hc, Option.map_some]

/-- The check on putting back never fails, whatever was read before. -/
theorem read?_eq (s : Scanner) : s.read? = some s.read := by
  fun_induction read? s with
  | case1 s h =>
    rw [read]
    split
    · rfl
    · cases h.symm.trans ‹_›
  | case2 s c s' h hb ih => rw [ih, read_of_pull h, if_pos hb]
  | case3 s c s' h hb hc =>
    rw [word?_eq, read_of_pull h, if_neg hb, if_pos hc, Option.map_some]
  | case4 s c s' h hb hc => rw [read_of_pull h, if_neg hb, if_neg hc]

end ComponentGraph.Scanner
