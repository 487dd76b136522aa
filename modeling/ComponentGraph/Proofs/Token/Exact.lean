import ComponentGraph.Proofs.Token.Stream

/-!
# Exact tokens

`Token.scanFrom` is the reference: it cuts a text by its characters alone, without a held
character and without counters, and finds each position by counting in the text before. A scanner
reads just these tokens, and after them the end of the input for ever.
-/

set_option autoImplicit false

namespace ComponentGraph

/-- The position right behind a text, by the newlines in it and the characters since the last. -/
def Position.behind (text : List Char) : Position :=
  ⟨1 + text.count '\n', 1 + (text.reverse.takeWhile (· != '\n')).length⟩

theorem Position.behind_concat (text : List Char) (c : Char) :
    behind (text ++ [c]) = (behind text).after c := by
  unfold behind after
  by_cases h : c = '\n'
  · subst h
    simp [Nat.add_assoc]
  · simp [h, Nat.add_comm]

theorem Position.advance_behind (before text : List Char) :
    (behind before).advance text = behind (before ++ text) := by
  induction text generalizing before with
  | nil => rw [advance_nil, List.append_nil]
  | cons c text ih => rw [advance_cons, ← behind_concat, ih, ← List.append_cons]

theorem Position.start_advance (text : List Char) : start.advance text = behind text :=
  advance_behind [] text

namespace Token

def blanks : List Char := [' ', '\t', '\n', '\r']

/-- The class `[A-Za-z_-]`. -/
def startsWord (c : Char) : Bool :=
  'A' ≤ c && c ≤ 'Z' || 'a' ≤ c && c ≤ 'z' || c ∈ ['_', '-']

/-- The class `[A-Za-z0-9_-]`. -/
def continuesWord (c : Char) : Bool := '0' ≤ c && c ≤ '9' || startsWord c

def punctuation : List (Char × TokenKind) :=
  [('<', .openAngle), ('>', .closeAngle), (',', .comma), ('(', .openParen), (')', .closeParen)]

/-- The tokens of a text that stands behind `before`. -/
def scanFrom (before : List Char) : List Char → List Token
  | [] => []
  | c :: text =>
    if c ∈ blanks then scanFrom (before ++ [c]) text
    else if startsWord c then
      let run := c :: text.takeWhile continuesWord
      ⟨.identifier, String.ofList run, .behind before⟩ ::
        scanFrom (before ++ run) (text.dropWhile continuesWord)
    else
      ⟨(punctuation.lookup c).getD .error, c.toString, .behind before⟩ ::
        scanFrom (before ++ [c]) text
termination_by text => text.length
decreasing_by
  · exact Nat.lt_succ_self _
  · exact Nat.lt_succ_of_le (List.length_dropWhile_le _ _)
  · exact Nat.lt_succ_self _

def ending (text : List Char) : Token := ⟨.endOfInput, "", .behind text⟩

theorem not_mem_blanks {c : Char} (h : continuesWord c = true) : c ∉ blanks := by
  intro hc
  simp only [blanks, List.mem_cons, List.not_mem_nil, or_false] at hc
  rcases hc with rfl | rfl | rfl | rfl <;> exact absurd h (by decide)

theorem continuesWord_of_startsWord {c : Char} (h : startsWord c = true) :
    continuesWord c = true := by
  rw [continuesWord, h, Bool.or_true]

theorem isBlank_iff {c : Char} : isBlank c = true ↔ c ∈ blanks := by
  simp [isBlank, blanks, or_assoc]

theorem isWordStart_eq : isWordStart = startsWord := by
  funext c
  have hupper : c.isUpper = ('A' ≤ c && c ≤ 'Z') := Bool.decide_and _ _
  have halpha : c.isAlpha = ('A' ≤ c && c ≤ 'Z' || 'a' ≤ c && c ≤ 'z') :=
    congrArg (· || c.isLower) hupper
  rw [isWordStart, startsWord, halpha, Bool.or_assoc]
  simp [beq_eq_decide]

theorem isWordChar_eq : isWordChar = continuesWord := by
  funext c
  have hdigit : c.isDigit = ('0' ≤ c && c ≤ '9') := rfl
  rw [isWordChar, continuesWord, isWordStart_eq, hdigit, Bool.or_comm]

theorem ofMark_eq (c : Char) : TokenKind.ofMark c = (punctuation.lookup c).getD .error := by
  unfold TokenKind.ofMark
  split
  case h_6 h1 h2 h3 h4 h5 =>
    have hne : ∀ d ∈ ['<', '>', ',', '(', ')'], (c == d) = false := by
      simpa using ⟨h1, h2, h3, h4, h5⟩
    simp [punctuation, List.lookup_cons, hne]
  all_goals rfl

@[simp] theorem scanFrom_nil (before : List Char) : scanFrom before [] = [] := by rw [scanFrom]

theorem kind_ne_of_mem_scanFrom {before text : List Char} {t : Token}
    (h : t ∈ scanFrom before text) : t.kind ≠ .endOfInput := by
  fun_induction scanFrom before text with
  | case1 => cases h
  | case2 before c text hc ih => exact ih h
  | case3 before c text hc hw run ih =>
    rcases List.mem_cons.mp h with rfl | h
    · exact TokenKind.noConfusion
    · exact ih h
  | case4 before c text hc hw ih =>
    rcases List.mem_cons.mp h with rfl | h
    · rw [← ofMark_eq]
      exact Lexeme.ofMark_ne_endOfInput c
    · exact ih h

theorem flatMap_text_scanFrom (before text : List Char) :
    ((scanFrom before text).flatMap fun t => t.text.toList) = text.filter (· ∉ blanks) := by
  fun_induction scanFrom before text with
  | case1 => rfl
  | case2 before c text hc ih =>
    rw [ih, List.filter_cons_of_neg (by simpa using hc)]
  | case3 before c text hc hw run ih =>
    have hrun : run.filter (· ∉ blanks) = run := by
      rw [List.filter_eq_self]
      intro x hx
      rw [decide_eq_true_eq]
      apply not_mem_blanks
      rcases List.mem_cons.mp hx with rfl | hx
      · exact continuesWord_of_startsWord hw
      · exact List.mem_takeWhile_imp hx
    have htext : c :: text = run ++ text.dropWhile continuesWord := by
      rw [List.cons_append, List.takeWhile_append_dropWhile]
    rw [List.flatMap_cons, String.toList_ofList, ih, htext, List.filter_append, hrun]
  | case4 before c text hc hw ih =>
    have hmark : c.toString.toList = [c] := String.toList_singleton c
    rw [List.flatMap_cons, hmark, ih, List.filter_cons_of_pos (by simpa using hc)]
    rfl

end Token

namespace Scanner

open Token

def afterReads (s : Scanner) : Nat → Scanner
  | 0 => s
  | n + 1 => s.read.2.afterReads n

/-- One reading takes one token of the reference. When none is left it tells the end of the whole
text, and none is left behind it either. -/
theorem StandsAfter.read_scanFrom {text before : List Char} {s : Scanner}
    (h : s.StandsAfter text before) :
    ∃ before', s.read.2.StandsAfter text before' ∧
      (scanFrom before s.unread = s.read.1 :: scanFrom before' s.read.2.unread ∨
        scanFrom before s.unread = [] ∧ scanFrom before' s.read.2.unread = [] ∧
          s.read.1 = Token.ending text) := by
  fun_induction Scanner.read s generalizing before with
  | case1 s hp =>
    have hunread := pull_eq_none hp
    refine ⟨before, h, .inr ?_⟩
    rw [hunread, scanFrom_nil, Token.ending, h.text_eq, hunread, List.append_nil, h.here_eq,
      Position.start_advance]
    exact ⟨rfl, rfl, rfl⟩
  | case2 s c s' hp hc ih =>
    obtain ⟨before', hs', hread⟩ := ih (h.pull hp).2
    refine ⟨before', hs', ?_⟩
    rwa [unread_of_pull hp, scanFrom, if_pos (isBlank_iff.mp hc)]
  | case3 s c s' hp hb hc more stop hw =>
    obtain ⟨hposition, hs'⟩ := h.pull hp
    have hrun := s'.word_eq
    have hstop := hs'.word
    rw [hw, isWordChar_eq] at hrun
    rw [hw, ← List.append_cons] at hstop
    refine ⟨_, hstop, .inl ?_⟩
    rw [unread_of_pull hp, scanFrom, if_neg (isBlank_iff.not.mp hb), if_pos (isWordStart_eq ▸ hc),
      hposition, Position.start_advance, ← hrun.1, ← hrun.2]
  | case4 s c s' hp hb hc =>
    obtain ⟨hposition, hs'⟩ := h.pull hp
    refine ⟨_, hs', .inl ?_⟩
    rw [unread_of_pull hp, scanFrom, if_neg (isBlank_iff.not.mp hb), if_neg (isWordStart_eq ▸ hc),
      hposition, Position.start_advance, ofMark_eq]

theorem StandsAfter.read_afterReads {text before : List Char} {s : Scanner}
    (h : s.StandsAfter text before) (n : Nat) :
    (s.afterReads n).read.1 = (scanFrom before s.unread)[n]?.getD (Token.ending text) := by
  induction n generalizing s before with
  | zero =>
    obtain ⟨before', -, hread | ⟨hnone, -, hread⟩⟩ := h.read_scanFrom
    · rw [afterReads, hread]
      rfl
    · rw [afterReads, hnone, hread]
      rfl
  | succ n ih =>
    obtain ⟨before', hs', hread⟩ := h.read_scanFrom
    rw [afterReads, ih hs']
    rcases hread with hread | ⟨hnone, hnone', -⟩
    · rw [hread, List.getElem?_cons_succ]
    · rw [hnone, hnone', List.getElem?_nil, List.getElem?_nil]

theorem StandsAfter.tokens_eq {text before : List Char} {s : Scanner}
    (h : s.StandsAfter text before) : s.tokens.1 = scanFrom before s.unread := by
  fun_induction Scanner.tokens s generalizing before with
  | case1 s hend =>
    obtain ⟨before', -, hread | ⟨hnone, -⟩⟩ := h.read_scanFrom
    · have hmem : s.read.1 ∈ scanFrom before s.unread := hread ▸ List.mem_cons_self
      exact absurd hend (kind_ne_of_mem_scanFrom hmem)
    · exact hnone.symm
  | case2 s hne more stop hm ih =>
    obtain ⟨before', hs', hread | ⟨-, -, hend⟩⟩ := h.read_scanFrom
    · rw [hread, ← ih hs', hm]
    · exact absurd (congrArg Token.kind hend) hne

/-- The tokens of a text are those of the reference. The end of the input stands right behind the
text and is read again and again, and nothing but white space is lost. -/
theorem tokens_ofString_exact (text : String) :
    (ofString text).tokens.1 = scanFrom [] text.toList ∧
      (∀ n, ((ofString text).afterReads n).read.1 =
        (scanFrom [] text.toList)[n]?.getD ⟨.endOfInput, "", .behind text.toList⟩) ∧
      String.join ((scanFrom [] text.toList).map Token.text) =
        String.ofList (text.toList.filter (· ∉ [' ', '\t', '\n', '\r'])) := by
  have hstart := standsAfter_ofString text
  refine ⟨hstart.tokens_eq, hstart.read_afterReads, ?_⟩
  rw [← String.toList_inj, String.toList_join, List.flatMap_map, String.toList_ofList]
  exact flatMap_text_scanFrom [] text.toList

end Scanner

end ComponentGraph
