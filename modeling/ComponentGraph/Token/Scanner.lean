import ComponentGraph.Token

/-!
# Reading tokens

A scanner is a state between two tokens. It pulls characters one at a time; the character that
ends an identifier is pulled with it and put back, together with its position. `unread` is the
text that is still to come, and reading a token shortens it unless the input has ended.
-/

set_option autoImplicit false

namespace ComponentGraph

structure Scanner where
  rest : List Char
  /-- The character that was put back, and the position where it stands. -/
  held : Option (Char × Position)
  /-- Position of the first character of `rest`. -/
  position : Position
  deriving DecidableEq, Repr

namespace Scanner

def ofString (text : String) : Scanner := ⟨text.toList, none, .start⟩

def unread (s : Scanner) : List Char :=
  match s.held with
  | some (c, _) => c :: s.rest
  | none => s.rest

/-- The position of the next character, or of the end of the input. -/
def here (s : Scanner) : Position :=
  match s.held with
  | some (_, p) => p
  | none => s.position

def pull (s : Scanner) : Option ((Char × Position) × Scanner) :=
  match s.held with
  | some c => some (c, { s with held := none })
  | none =>
    match s.rest with
    | [] => none
    | c :: rest => some ((c, s.position), ⟨rest, none, s.position.after c⟩)

def putBack (s : Scanner) (c : Char × Position) : Scanner := { s with held := some c }

theorem pull_eq_none {s : Scanner} (h : s.pull = none) : s.unread = [] := by
  unfold pull at h
  split at h
  · cases h
  · rename_i hheld
    split at h
    · rename_i hrest
      rw [unread, hheld]
      exact hrest
    · cases h

theorem unread_of_pull {s s' : Scanner} {c : Char × Position} (h : s.pull = some (c, s')) :
    s.unread = c.1 :: s'.unread := by
  unfold pull at h
  split at h
  · rename_i hheld
    cases h
    rw [unread, hheld]
    rfl
  · rename_i hheld
    split at h
    · cases h
    · rename_i hrest
      cases h
      rw [unread, hheld]
      exact hrest

theorem held_of_pull {s s' : Scanner} {c : Char × Position} (h : s.pull = some (c, s')) :
    s'.held = none := by
  unfold pull at h
  split at h
  · cases h
    rfl
  · split at h
    · cases h
    · cases h
      rfl

def word (s : Scanner) : List Char × Scanner :=
  match _h : s.pull with
  | none => ([], s)
  | some (c, s') =>
    if isWordChar c.1 then
      let (more, stop) := s'.word
      (c.1 :: more, stop)
    else ([], s'.putBack c)
termination_by s.unread.length
decreasing_by simp [unread_of_pull _h]

/-- The next token. At the end of the input this is the same token again and again. -/
def read (s : Scanner) : Token × Scanner :=
  match _h : s.pull with
  | none => (⟨.endOfInput, "", s.here⟩, s)
  | some (c, s') =>
    if isBlank c.1 then s'.read
    else if isWordStart c.1 then
      let (more, stop) := s'.word
      (⟨.identifier, String.ofList (c.1 :: more), c.2⟩, stop)
    else (⟨.ofMark c.1, c.1.toString, c.2⟩, s')
termination_by s.unread.length
decreasing_by simp [unread_of_pull _h]

/-- The next token, unless the input has ended. -/
def next? (s : Scanner) : Option Token × Scanner :=
  let (t, s') := s.read
  (if t.kind = .endOfInput then none else some t, s')

/-- The next token, which has to be of one of the given kinds. It is taken in either case. -/
def expect (s : Scanner) (kinds : List TokenKind) : Except Fault Token × Scanner :=
  let (t, s') := s.read
  (if t.kind ∈ kinds then .ok t else .error t.unexpected, s')

theorem unread_putBack {s : Scanner} (h : s.held = none) (c : Char × Position) :
    (s.putBack c).unread = c.1 :: s.unread := by
  simp [putBack, unread, h]

theorem word_length_le (s : Scanner) : s.word.2.unread.length ≤ s.unread.length := by
  fun_induction word s with
  | case1 => exact Nat.le_refl _
  | case2 s c s' h hc more stop hw ih =>
    rw [hw] at ih
    rw [unread_of_pull h]
    exact Nat.le_succ_of_le ih
  | case3 s c s' h hc =>
    exact Nat.le_of_eq (by rw [unread_putBack (held_of_pull h), unread_of_pull h])

theorem read_length_le (s : Scanner) : s.read.2.unread.length ≤ s.unread.length := by
  fun_induction read s with
  | case1 => exact Nat.le_refl _
  | case2 s c s' h hc ih =>
    rw [unread_of_pull h]
    exact Nat.le_succ_of_le ih
  | case3 s c s' h hb hc more stop hw =>
    have := s'.word_length_le
    rw [hw] at this
    rw [unread_of_pull h]
    exact Nat.le_succ_of_le this
  | case4 s c s' h =>
    rw [unread_of_pull h]
    exact Nat.le_succ _

/-- Reading makes progress until the input ends. -/
theorem read_length_lt {s : Scanner} (h : s.read.1.kind ≠ .endOfInput) :
    s.read.2.unread.length < s.unread.length := by
  fun_induction read s with
  | case1 => exact absurd rfl h
  | case2 s c s' hp hc ih =>
    rw [unread_of_pull hp]
    exact Nat.lt_succ_of_lt (ih h)
  | case3 s c s' hp hb hc more stop hw =>
    have := s'.word_length_le
    rw [hw] at this
    rw [unread_of_pull hp]
    exact Nat.lt_succ_of_le this
  | case4 s c s' hp =>
    rw [unread_of_pull hp]
    exact Nat.lt_succ_self _

/-- The tokens up to the end of the input, which is not among them. -/
def tokens (s : Scanner) : List Token × Scanner :=
  if _h : s.read.1.kind = .endOfInput then ([], s.read.2)
  else
    let (more, stop) := s.read.2.tokens
    (s.read.1 :: more, stop)
termination_by s.unread.length
decreasing_by exact read_length_lt _h

end Scanner

end ComponentGraph
