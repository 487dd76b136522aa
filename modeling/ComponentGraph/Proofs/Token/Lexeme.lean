import ComponentGraph.Token.Scanner
import Mathlib.Data.List.TakeWhile

/-!
# The lexemes of a text

A lexeme is a token without its position. `scan` cuts a text into lexemes by looking at the
characters alone; a scanner, with its held character and its counters, is shown to read just the
lexemes of the text that is unread. Where each token stands is not a matter of this module.
-/

set_option autoImplicit false

namespace ComponentGraph

structure Lexeme where
  kind : TokenKind
  text : String
  deriving DecidableEq, Repr

def Token.lexeme (t : Token) : Lexeme := ⟨t.kind, t.text⟩

/-- A name of the form `[A-Za-z_-][A-Za-z0-9_-]*`. -/
def IsIdentifier (name : String) : Prop :=
  ∃ c rest, name.toList = c :: rest ∧ isWordStart c = true ∧ ∀ x ∈ rest, isWordChar x = true

theorem isWordChar_of_isWordStart {c : Char} (h : isWordStart c = true) : isWordChar c = true := by
  rw [isWordChar, h, Bool.or_true]

theorem isBlank_of_isWordStart {c : Char} (h : isWordStart c = true) : isBlank c = false := by
  rw [Bool.eq_false_iff]
  intro hb
  simp only [isBlank, Bool.or_eq_true, beq_iff_eq] at hb
  rcases hb with ((rfl | rfl) | rfl) | rfl <;> exact absurd h (by decide)

namespace Lexeme

def word (name : String) : Lexeme := ⟨.identifier, name⟩

def mark (c : Char) : Lexeme := ⟨.ofMark c, c.toString⟩

def ending : Lexeme := ⟨.endOfInput, ""⟩

theorem word_injective {m n : String} (h : word m = word n) : m = n := congrArg text h

@[simp] theorem mark_inj {c d : Char} : mark c = mark d ↔ c = d := by
  constructor
  · intro h
    have htext : c.toString = d.toString := congrArg text h
    simpa using congrArg String.toList htext
  · rintro rfl
    rfl

theorem ofMark_ne_identifier (c : Char) : TokenKind.ofMark c ≠ .identifier := by
  unfold TokenKind.ofMark
  split <;> exact TokenKind.noConfusion

@[simp] theorem word_ne_mark (name : String) (c : Char) : word name ≠ mark c :=
  fun h => ofMark_ne_identifier c (congrArg kind h).symm

theorem ofMark_ne_endOfInput (c : Char) : TokenKind.ofMark c ≠ .endOfInput := by
  unfold TokenKind.ofMark
  split <;> exact TokenKind.noConfusion

theorem mem_marks_of_ne_error {c : Char} (h : TokenKind.ofMark c ≠ .error) :
    c ∈ ['<', '>', ',', '(', ')'] := by
  unfold TokenKind.ofMark at h
  split at h
  case h_6 => exact absurd rfl h
  all_goals decide

/-- The kind of a mark tells the mark, unless it is the kind of errors. -/
theorem ofMark_injective {c d : Char} (h : TokenKind.ofMark c = TokenKind.ofMark d)
    (hc : TokenKind.ofMark c ≠ .error) : c = d := by
  have hcmem := mem_marks_of_ne_error hc
  have hdmem := mem_marks_of_ne_error (h ▸ hc)
  simp only [List.mem_cons, List.not_mem_nil, or_false] at hcmem hdmem
  rcases hcmem with rfl | rfl | rfl | rfl | rfl <;>
    rcases hdmem with rfl | rfl | rfl | rfl | rfl <;>
      first
      | rfl
      | cases h

/-- The lexemes that a text can have. -/
def Proper (l : Lexeme) : Prop :=
  (∃ name, IsIdentifier name ∧ l = word name) ∨
  (∃ c, isBlank c = false ∧ isWordStart c = false ∧ l = mark c)

theorem Proper.ne_ending {l : Lexeme} (h : l.Proper) : l.kind ≠ .endOfInput := by
  rcases h with ⟨name, -, rfl⟩ | ⟨c, -, -, rfl⟩
  · exact TokenKind.noConfusion
  · exact ofMark_ne_endOfInput c

theorem proper_word_iff {name : String} : (word name).Proper ↔ IsIdentifier name := by
  constructor
  · rintro (⟨n, hn, heq⟩ | ⟨c, -, -, heq⟩)
    · rwa [word_injective heq]
    · exact absurd heq (word_ne_mark name c)
  · intro h
    exact .inl ⟨name, h, rfl⟩

theorem proper_mark {c : Char} (hb : isBlank c = false) (hw : isWordStart c = false) :
    (mark c).Proper := .inr ⟨c, hb, hw, rfl⟩

/-- Drops white space, takes words as long as they go, and every other character by itself. -/
def scan : List Char → List Lexeme
  | [] => []
  | c :: text =>
    if isBlank c then scan text
    else if isWordStart c then
      word (String.ofList (c :: text.takeWhile isWordChar)) :: scan (text.dropWhile isWordChar)
    else mark c :: scan text
termination_by text => text.length
decreasing_by
  · exact Nat.lt_succ_self _
  · exact Nat.lt_succ_of_le (List.length_dropWhile_le _ _)
  · exact Nat.lt_succ_self _

@[simp] theorem scan_nil : scan [] = [] := by rw [scan]

theorem scan_blank {c : Char} (h : isBlank c = true) (text : List Char) :
    scan (c :: text) = scan text := by
  rw [scan, if_pos h]

theorem scan_blanks_append {w : List Char} (hw : ∀ c ∈ w, isBlank c = true) (text : List Char) :
    scan (w ++ text) = scan text := by
  induction w with
  | nil => rfl
  | cons c w ih =>
    obtain ⟨hc, hw⟩ := List.forall_mem_cons.mp hw
    rw [List.cons_append, scan_blank hc, ih hw]

theorem scan_mark {c : Char} (hb : isBlank c = false) (hw : isWordStart c = false)
    (text : List Char) : scan (c :: text) = mark c :: scan text := by
  rw [scan, hb, hw]
  rfl

theorem scan_run {c : Char} (h : isWordStart c = true) (text : List Char) :
    scan (c :: text) =
      word (String.ofList (c :: text.takeWhile isWordChar)) ::
        scan (text.dropWhile isWordChar) := by
  rw [scan, isBlank_of_isWordStart h, if_neg Bool.false_ne_true, if_pos h]

theorem scan_word {name : String} (h : IsIdentifier name) : scan name.toList = [word name] := by
  obtain ⟨c, rest, hname, hc, hrest⟩ := h
  rw [hname, scan_run hc, List.takeWhile_eq_self_iff.mpr hrest,
    List.dropWhile_eq_nil_iff.mpr hrest, scan_nil, ← hname, String.ofList_toList]

/-- A run of characters that reaches the end of the first part has to stop there. -/
theorem takeWhile_append_stop {p : Char → Bool} {a b : List Char}
    (h : a.dropWhile p = [] → ∀ c ∈ b.head?, p c = false) :
    (a ++ b).takeWhile p = a.takeWhile p ∧ (a ++ b).dropWhile p = a.dropWhile p ++ b := by
  induction a with
  | nil =>
    cases b with
    | nil => exact ⟨rfl, rfl⟩
    | cons c b => simp [h rfl c rfl]
  | cons c a ih =>
    by_cases hc : p c = true
    · rw [List.dropWhile_cons_of_pos hc] at h
      simp [hc, ih h]
    · simp [hc]

/-- The last lexeme is a word, and it reaches to the end of the text. -/
def EndsInWord (text : List Char) : Prop :=
  ∃ l, (scan text).getLast? = some l ∧ l.kind = .identifier ∧ l.text.toList <:+ text

theorem EndsInWord.of_suffix {text whole : List Char} (h : EndsInWord text)
    (hscan : scan text <:+ scan whole) (hsuffix : text <:+ whole) : EndsInWord whole := by
  obtain ⟨l, hlast, hkind, htext⟩ := h
  refine ⟨l, ?_, hkind, htext.trans hsuffix⟩
  obtain ⟨before, hbefore⟩ := hscan
  rw [← hbefore, List.getLast?_append, hlast, Option.some_or]

theorem endsInWord_run {c : Char} {text : List Char} (hc : isWordStart c = true)
    (hrun : text.dropWhile isWordChar = []) : EndsInWord (c :: text) := by
  have htake : text.takeWhile isWordChar = text :=
    List.takeWhile_eq_self_iff.mpr (List.dropWhile_eq_nil_iff.mp hrun)
  refine ⟨word (String.ofList (c :: text)), ?_, rfl, ?_⟩
  · rw [scan_run hc, htake, hrun, scan_nil, List.getLast?_singleton]
  · simp only [word, String.toList_ofList, List.suffix_rfl]

/-- A text may be cut anywhere, as long as no word stands on both sides of the cut. -/
theorem scan_append (a b : List Char) (h : EndsInWord a → ∀ c ∈ b.head?, isWordChar c = false) :
    scan (a ++ b) = scan a ++ scan b := by
  fun_induction scan a with
  | case1 => rfl
  | case2 c text hc ih =>
    have hends : EndsInWord text → EndsInWord (c :: text) := fun hends =>
      hends.of_suffix (scan_blank hc text ▸ List.suffix_rfl) (List.suffix_cons c text)
    rw [List.cons_append, scan_blank hc, ih (h ∘ hends)]
  | case3 c text hc hw ih =>
    have hends : EndsInWord (text.dropWhile isWordChar) → EndsInWord (c :: text) := fun hends =>
      hends.of_suffix (scan_run hw text ▸ List.suffix_cons _ _)
        ((List.dropWhile_suffix _).trans (List.suffix_cons c text))
    obtain ⟨htake, hdrop⟩ := takeWhile_append_stop (h ∘ endsInWord_run hw)
    rw [List.cons_append, scan_run hw, htake, hdrop, ih (h ∘ hends), List.cons_append]
  | case4 c text hc hw ih =>
    have hmark := scan_mark (c := c) (by simpa using hc) (by simpa using hw)
    have hends : EndsInWord text → EndsInWord (c :: text) := fun hends =>
      hends.of_suffix (hmark text ▸ List.suffix_cons _ _) (List.suffix_cons c text)
    rw [List.cons_append, hmark, ih (h ∘ hends), List.cons_append]

theorem scan_append_mark (a b : List Char) {c : Char} (hb : isBlank c = false)
    (hc : isWordChar c = false) : scan (a ++ c :: b) = scan a ++ mark c :: scan b := by
  have hw : isWordStart c = false := by
    rw [Bool.eq_false_iff]
    exact fun hw => absurd (isWordChar_of_isWordStart hw) (Bool.eq_false_iff.mp hc)
  rw [scan_append a _ fun _ => by simpa using hc, scan_mark hb hw]

theorem scan_append_blank (a b : List Char) {c : Char} (hb : isBlank c = true)
    (hc : isWordChar c = false) : scan (a ++ c :: b) = scan a ++ scan b := by
  rw [scan_append a _ fun _ => by simpa using hc, scan_blank hb]

theorem proper_of_mem_scan {text : List Char} {l : Lexeme} (h : l ∈ scan text) : l.Proper := by
  fun_induction scan text with
  | case1 => cases h
  | case2 c text hc ih => exact ih h
  | case3 c text hc hw ih =>
    rcases List.mem_cons.mp h with rfl | h
    · exact .inl ⟨_, ⟨c, _, String.toList_ofList, hw, fun x hx => List.mem_takeWhile_imp hx⟩, rfl⟩
    · exact ih h
  | case4 c text hc hw ih =>
    rcases List.mem_cons.mp h with rfl | h
    · exact .inr ⟨c, by simpa using hc, by simpa using hw, rfl⟩
    · exact ih h

/-- The lexemes as a text, each followed by a space. -/
def spell (ls : List Lexeme) : List Char := ls.flatMap fun l => l.text.toList ++ [' ']

theorem scan_spell {ls : List Lexeme} (h : ∀ l ∈ ls, l.Proper) : scan (spell ls) = ls := by
  induction ls with
  | nil => exact scan_nil
  | cons l ls ih =>
    have hl : scan l.text.toList = [l] := by
      rcases h l List.mem_cons_self with ⟨name, hname, rfl⟩ | ⟨c, hb, hw, rfl⟩
      · exact scan_word hname
      · have htext : (mark c).text.toList = [c] := String.toList_singleton c
        rw [htext, scan_mark hb hw, scan_nil]
    rw [spell, List.flatMap_cons, List.append_assoc, scan_append _ _ fun _ => by simp; decide, hl,
      List.cons_append, List.nil_append, List.cons_append, List.nil_append,
      scan_blank (by decide)]
    exact congrArg (l :: ·) (ih fun x hx => h x (List.mem_cons_of_mem l hx))

end Lexeme

end ComponentGraph
