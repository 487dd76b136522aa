import ComponentGraph.Proofs.DataType.Parsing
import ComponentGraph.Proofs.Token.Exact

/-!
# White space in type expressions

What a text parses to depends on the kinds and the texts of its tokens, and on nothing else of it.
White space ends a word and has no other part in this: between two tokens any amount of it will do,
and none will where no word reaches over the place.
-/

set_option autoImplicit false

namespace ComponentGraph.DataType

open Lexeme

/-- Both texts are of one type, or both are refused with the same message at the token with the
same number. -/
inductive ParseAlike (text text' : String) : Prop
  | ok {type : DataType} :
    parse text = .ok type → parse text' = .ok type → ParseAlike text text'
  | error {e e' : Fault} {i : Nat} {t t' : Token} :
    parse text = .error e → parse text' = .error e' → e'.message = e.message →
    (Scanner.ofString text).stream[i]? = some t → e.position = some t.position →
    (Scanner.ofString text').stream[i]? = some t' → e'.position = some t'.position →
    ParseAlike text text'

theorem Expectation.complaint_congr (e : Expectation) {t t' : Token} (h : t.lexeme = t'.lexeme) :
    e.complaint t = e.complaint t' := by
  obtain ⟨kind, text, position⟩ := t
  obtain ⟨kind', text', position'⟩ := t'
  obtain ⟨rfl, rfl⟩ := Lexeme.mk.inj h
  cases e <;> rfl

theorem parse_alike {text text' : String} (h : scan text.toList = scan text'.toList) :
    ParseAlike text text' := by
  cases hparse : parse text with
  | ok type =>
    refine .ok hparse (parse_eq_ok_iff_scan.mpr ?_)
    rw [← h]
    exact parse_eq_ok_iff_scan.mp hparse
  | error e =>
    obtain ⟨p, m, expected, hp, he, hn, rfl⟩ := parse_eq_error_iff.mp hparse
    -- The other text has the same lexemes up to the one that is blamed.
    have hstream : (Scanner.ofString text').stream.map Token.lexeme =
        (Scanner.ofString text).stream.map Token.lexeme := by
      rw [Scanner.stream_lexeme, Scanner.stream_lexeme]
      exact congrArg (· ++ [ending]) h.symm
    have hbegins : p ++ [m.read.1.lexeme] <+: (Scanner.ofString text').stream.map Token.lexeme := by
      rw [hstream, ← hp.take_stream]
      exact List.take_prefix _ _
    obtain ⟨m', hp', hlexeme⟩ := Scanner.exists_takes_of_stream hbegins
    have hparse' : parse text' = .error (expected.fault m'.read.1) :=
      parse_eq_error_iff.mpr ⟨p, m', expected, hp', he, hlexeme ▸ hn, rfl⟩
    have hcause := expected.complaint_congr hlexeme
    exact .error hparse hparse' (congrArg Cause.message hcause) hp.stream_getElem? rfl
      hp'.stream_getElem? rfl

/-- The last token of the first text is a word that reaches to its end, and the second text begins
with a character that would go on with it. -/
def RunTogether (a b : String) : Prop :=
  (∃ t, (Scanner.ofString a).tokens.1.getLast? = some t ∧ t.kind = .identifier ∧
    t.text.toList <:+ a.toList) ∧
  ∃ c ∈ b.toList.head?, Token.continuesWord c = true

theorem runTogether_of_endsInWord {a b : String} (ha : EndsInWord a.toList)
    (hb : ∃ c ∈ b.toList.head?, isWordChar c = true) : RunTogether a b := by
  obtain ⟨l, hlast, hkind, hsuffix⟩ := ha
  have htokens : (Scanner.ofString a).tokens.1.map Token.lexeme = scan a.toList :=
    Scanner.tokens_lexeme _
  rw [← htokens, List.getLast?_map] at hlast
  obtain ⟨t, ht, rfl⟩ := Option.map_eq_some_iff.mp hlast
  rw [Token.isWordChar_eq] at hb
  exact ⟨⟨t, ht, hkind, hsuffix⟩, hb⟩

/-- The lexemes of both texts, with any white space between them that keeps their words apart. -/
theorem scan_spaced {a b w : String} (hw : ∀ c ∈ w.toList, c ∈ Token.blanks)
    (hseam : RunTogether a b → w ≠ "") :
    scan (a ++ w ++ b).toList = scan a.toList ++ scan b.toList := by
  have hblank : ∀ c ∈ w.toList, isBlank c = true := fun c hc => Token.isBlank_iff.mpr (hw c hc)
  rw [String.toList_append, String.toList_append, List.append_assoc, scan_append,
    scan_blanks_append hblank]
  intro hends c hc
  cases hspace : w.toList with
  | nil =>
    rw [hspace, List.nil_append] at hc
    refine Bool.eq_false_iff.mpr fun hword => ?_
    have hrun : RunTogether a b := runTogether_of_endsInWord hends ⟨c, hc, hword⟩
    exact hseam hrun (String.toList_eq_nil_iff.mp hspace)
  | cons d rest =>
    rw [hspace, List.cons_append, List.head?_cons] at hc
    obtain rfl := Option.mem_some_iff.mp hc
    rw [Token.isWordChar_eq]
    refine Bool.eq_false_iff.mpr fun hword => ?_
    exact Token.not_mem_blanks hword (hw d (hspace ▸ List.mem_cons_self))

/-- White space between two tokens may be exchanged for other white space. It may be left out too,
except where the tokens are words that would run together. -/
theorem parse_respaced {a b w w' : String} (hw : ∀ c ∈ w.toList, c ∈ [' ', '\t', '\n', '\r'])
    (hw' : ∀ c ∈ w'.toList, c ∈ [' ', '\t', '\n', '\r'])
    (hseam : RunTogether a b → w ≠ "" ∧ w' ≠ "") :
    (Scanner.ofString (a ++ w ++ b)).tokens.1.map Token.lexeme =
      (Scanner.ofString (a ++ w' ++ b)).tokens.1.map Token.lexeme ∧
    ParseAlike (a ++ w ++ b) (a ++ w' ++ b) := by
  have h := scan_spaced hw fun hrun => (hseam hrun).1
  have h' := scan_spaced hw' fun hrun => (hseam hrun).2
  refine ⟨?_, parse_alike (h.trans h'.symm)⟩
  rw [Scanner.tokens_lexeme, Scanner.tokens_lexeme]
  exact h.trans h'.symm

/-- The fault moves to the next line, together with the token that it blames. -/
theorem parse_respaced_duplicate :
    RunTogether "record<int" "a, bool a>" ∧
    parse ("record<int" ++ " " ++ "a, bool a>") =
      .error ⟨.duplicateField "a", some ⟨1, 20⟩⟩ ∧
    parse ("record<int" ++ "\r\n\t" ++ "a, bool a>") =
      .error ⟨.duplicateField "a", some ⟨2, 10⟩⟩ ∧
    (Scanner.ofString ("record<int" ++ " " ++ "a, bool a>")).tokens.1.map Token.lexeme =
      (Scanner.ofString ("record<int" ++ "\r\n\t" ++ "a, bool a>")).tokens.1.map Token.lexeme ∧
    ParseAlike ("record<int" ++ " " ++ "a, bool a>")
      ("record<int" ++ "\r\n\t" ++ "a, bool a>") := by
  have hrun : RunTogether "record<int" "a, bool a>" :=
    ⟨⟨⟨.identifier, "int", ⟨1, 8⟩⟩, by decide +kernel, rfl, by decide⟩, 'a', rfl, by decide⟩
  exact ⟨hrun, by decide +kernel, by decide +kernel,
    parse_respaced (by simp) (by simp) fun _ => by decide⟩

end ComponentGraph.DataType
