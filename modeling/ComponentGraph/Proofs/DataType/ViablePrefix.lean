import ComponentGraph.Proofs.DataType.Completion
import ComponentGraph.Proofs.DataType.Parsing

/-!
# The first token that cannot be right

A beginning of tokens is viable when some text that parses begins so. Behind a viable beginning
just those lexemes are viable that are expected there, and a fault blames the first token that
makes the beginning no longer viable. The position is that of the token; that the token stands
there in the text is the matter of `Scanner.StandsAfter`.
-/

set_option autoImplicit false

namespace ComponentGraph.DataType

open Lexeme

/-- The lexemes of a text, with the end of the input as the last one. -/
def lexemes (text : String) : List Lexeme := (Scanner.ofString text).stream.map Token.lexeme

def Viable (ls : List Lexeme) : Prop := ∃ text type, parse text = .ok type ∧ ls <+: lexemes text

theorem Viable.of_beginning {ls ls' : List Lexeme} (h : Viable ls) (hbegins : ls' <+: ls) :
    Viable ls' := by
  obtain ⟨text, type, hok, hls⟩ := h
  exact ⟨text, type, hok, hbegins.trans hls⟩

theorem Fits.viable {ls : List Lexeme} {type : DataType} (h : Fits 0 ls type)
    (hls : ∀ l ∈ ls, l.Proper) : Viable (ls ++ [.ending]) := by
  have hscan : scan (String.ofList (spell ls)).toList = ls := by
    rw [String.toList_ofList, scan_spell hls]
  have hdepth : type.depth ≤ maxDepth := by simpa using h.depth_le
  refine ⟨String.ofList (spell ls), type, ?_, ?_⟩
  · exact parse_eq_ok_iff_scan.mpr ⟨hscan.symm ▸ h.derives, hdepth⟩
  · have hlexemes := Scanner.stream_lexeme (.ofString (String.ofList (spell ls)))
    rw [Scanner.unread, Scanner.ofString, hscan] at hlexemes
    exact hlexemes ▸ List.prefix_rfl

theorem Awaits.not_admits_ending {depth : Nat} {p : List Lexeme} {e : Expectation}
    (h : Awaits depth p e) : ¬ e.Admits .ending := by
  intro hending
  cases e with
  | type depth orClose =>
    obtain ⟨w, hw, -⟩ | ⟨-, hclose⟩ := hending
    · exact TokenKind.noConfusion (congrArg kind hw)
    · exact ofMark_ne_endOfInput '>' (congrArg kind hclose).symm
  | fieldName names =>
    obtain ⟨name, -, hname⟩ := hending
    exact TokenKind.noConfusion (congrArg kind hname)
  | marks cs =>
    obtain ⟨c, -, hc⟩ := hending
    exact ofMark_ne_endOfInput c (congrArg kind hc).symm
  | ending =>
    obtain ⟨l, hproper, rfl⟩ := h.exists_admits
    exact hproper.ne_ending rfl

section Expects

variable {p : List Lexeme} {e : Expectation} {l : Lexeme}

theorem Expects.viable_of_admits (h : Expects p e) (hp : ∀ x ∈ p, x.Proper)
    (hl : l.Proper ∨ l = .ending) (ha : e.Admits l) : Viable (p ++ [l]) := by
  cases h with
  | inside hawaits =>
    rcases hl with hl | rfl
    · obtain ⟨q, hq, type, hfit⟩ := hawaits.completes (Nat.zero_le _) ha
      have hproper : ∀ x ∈ p ++ [l] ++ q, x.Proper := by
        simp only [List.mem_append, List.mem_singleton]
        rintro x ((hx | rfl) | hx)
        · exact hp x hx
        · exact hl
        · exact hq x hx
      refine (hfit.viable hproper).of_beginning ?_
      rw [List.append_assoc]
      exact List.prefix_append _ _
    · exact absurd ha hawaits.not_admits_ending
  | behind hfit =>
    cases ha
    exact hfit.viable hp

theorem Expects.admits_of_viable (h : Expects p e) (hv : Viable (p ++ [l])) : e.Admits l := by
  obtain ⟨text, type, hok, hbegins⟩ := hv
  obtain ⟨m, hm, rfl⟩ := Scanner.exists_takes_of_stream hbegins
  refine Classical.byContradiction fun hn => ?_
  cases hok.symm.trans (parse_eq_error_iff.mpr ⟨p, m, e, hm, h, hn, rfl⟩)

theorem Expects.viable_iff_admits (h : Expects p e) (hp : ∀ x ∈ p, x.Proper)
    (hl : l.Proper ∨ l = .ending) : Viable (p ++ [l]) ↔ e.Admits l :=
  ⟨h.admits_of_viable, h.viable_of_admits hp hl⟩

theorem Expects.viable (h : Expects p e) (hp : ∀ x ∈ p, x.Proper) : Viable p := by
  have hnext : ∃ l, (l.Proper ∨ l = .ending) ∧ e.Admits l := by
    cases h with
    | inside hawaits =>
      obtain ⟨l, hl, ha⟩ := hawaits.exists_admits
      exact ⟨l, .inl hl, ha⟩
    | behind => exact ⟨.ending, .inr rfl, rfl⟩
  obtain ⟨l, hl, ha⟩ := hnext
  exact (h.viable_of_admits hp hl ha).of_beginning (List.prefix_append _ _)

/-- A container is refused only inside of as many containers as there may be. -/
theorem Expects.open_of_refused {d : Nat} {c : Bool} {t : Token} (h : Expects p (.type d c))
    (hn : ¬ (Expectation.type d c).Admits t.lexeme)
    (ht : t.kind = .identifier ∧ t.text ∈ ["list", "map", "record"]) :
    p.count (mark '<') = p.count (mark '>') + 128 := by
  obtain ⟨hle, hcount⟩ := h.depth_of_type
  obtain ⟨hkind, htext⟩ := ht
  have hword : ∃ w : TypeWord, t.text = w.text := by
    simp only [List.mem_cons, List.not_mem_nil, or_false] at htext
    rcases htext with htext | htext | htext
    · exact ⟨.list, htext⟩
    · exact ⟨.map, htext⟩
    · exact ⟨.record, htext⟩
  obtain ⟨w, hw⟩ := hword
  have hdeep : ¬ d < maxDepth := fun hlt =>
    hn (.inl ⟨w, congrArg₂ Lexeme.mk hkind hw, fun _ => hlt⟩)
  rw [maxDepth] at hle hdeep
  omega

end Expects

/-- The fault blames the token at `k`, with which the beginning stops being viable. -/
structure BlamesFirst (text : String) (k : Nat) (t : Token) (f : Fault) : Prop where
  token : (Scanner.ofString text).stream[k]? = some t
  viable : ∀ j < k, Viable ((lexemes text).take (j + 1))
  not_viable : ¬ Viable ((lexemes text).take (k + 1))
  position : f.position = some t.position
  position_pos : 0 < t.position.line ∧ 0 < t.position.column
  expected : ∃ e, Expects ((lexemes text).take k) e
  admits : ∀ e, Expects ((lexemes text).take k) e → ∀ l : Lexeme, l.Proper ∨ l = .ending →
    (Viable ((lexemes text).take k ++ [l]) ↔ e.Admits l)
  message : ∀ e, Expects ((lexemes text).take k) e → f.message = e.message t
  nested : ∀ d c, Expects ((lexemes text).take k) (.type d c) →
    t.kind = .identifier ∧ t.text ∈ ["list", "map", "record"] →
    ((lexemes text).take k).count (mark '<') = ((lexemes text).take k).count (mark '>') + 128

theorem parse_error_blames_first {text : String} {f : Fault} (h : parse text = .error f) :
    ∃ k t, BlamesFirst text k t f := by
  -- `p` is what was taken before the token that is blamed, so `k` is its length
  obtain ⟨p, m, e, hp, he, hn, hf⟩ := parse_eq_error_iff.mp h
  have hproper : ∀ x ∈ p, x.Proper := fun x hx => hp.proper hx
  have htake : (lexemes text).take p.length = p := by
    rw [lexemes, hp.stream_lexeme, List.take_left]
  have htake' : (lexemes text).take (p.length + 1) = p ++ [m.read.1.lexeme] := hp.take_stream
  have hrefused : ∀ e', Expects p e' → ¬ e'.Admits m.read.1.lexeme := by
    intro e' he' ha
    rw [← he'.viable_iff_admits hproper m.read_proper_or_ending] at ha
    exact hn (he.admits_of_viable ha)
  refine ⟨p.length, m.read.1, hp.stream_getElem?, ?_, ?_, ?_, Scanner.position_pos_of_takes hp,
    ⟨e, htake.symm ▸ he⟩, ?_, ?_, ?_⟩
  · intro j hj
    refine (he.viable hproper).of_beginning ?_
    rw [← htake]
    exact List.take_prefix_take_left hj
  · rw [htake']
    exact fun hv => hn (he.admits_of_viable hv)
  · rw [hf]
    rfl
  · rw [htake]
    exact fun e' he' l hl => he'.viable_iff_admits hproper hl
  · rw [htake]
    intro e' he'
    have hblamed := parse_eq_error_iff.mpr ⟨p, m, e', hp, he', hrefused e' he', rfl⟩
    obtain rfl := Except.error.inj (h.symm.trans hblamed)
    exact e'.message_complaint m.read.1
  · rw [htake]
    exact fun d c he' hcontainer => he'.open_of_refused (hrefused _ he') hcontainer

/-- The token that is blamed is the one at the position of the fault. -/
theorem BlamesFirst.token_eq {text : String} {k : Nat} {t : Token} {f : Fault}
    (h : BlamesFirst text k t f) (t' : Token)
    (honly : ∀ x ∈ (Scanner.ofString text).stream, some x.position = f.position → x = t') :
    t = t' := honly t (List.mem_of_getElem? h.token) h.position.symm

/-- The second field of the name is blamed for its name, a mark is blamed where a type is expected,
and so is the end of the input where a list is to be closed. -/
theorem parse_error_blames_first_met :
    (∃ f k, parse "record<int a, bool a>" = .error f ∧ f.position = some ⟨1, 20⟩ ∧
      f.message = "Duplicate record field: a" ∧
      BlamesFirst "record<int a, bool a>" k ⟨.identifier, "a", ⟨1, 20⟩⟩ f) ∧
    (∃ f k, parse "map<int,\n,>" = .error f ∧ f.position = some ⟨2, 1⟩ ∧
      f.message = "Unexpected token: ," ∧ BlamesFirst "map<int,\n,>" k ⟨.comma, ",", ⟨2, 1⟩⟩ f) ∧
    ∃ f k, parse "list<int" = .error f ∧ f.position = some ⟨1, 9⟩ ∧
      f.message = "Unexpected token: end of input" ∧
      BlamesFirst "list<int" k ⟨.endOfInput, "", ⟨1, 9⟩⟩ f := by
  have hname : parse "record<int a, bool a>" = .error ⟨.duplicateField "a", some ⟨1, 20⟩⟩ := by
    decide +kernel
  have hmark : parse "map<int,\n,>" = .error ⟨.unexpectedToken ",", some ⟨2, 1⟩⟩ := by
    decide +kernel
  have hend : parse "list<int" = .error ⟨.unexpectedToken "end of input", some ⟨1, 9⟩⟩ := by
    decide +kernel
  obtain ⟨k₁, t₁, h₁⟩ := parse_error_blames_first hname
  obtain ⟨k₂, t₂, h₂⟩ := parse_error_blames_first hmark
  obtain ⟨k₃, t₃, h₃⟩ := parse_error_blames_first hend
  obtain rfl := h₁.token_eq ⟨.identifier, "a", ⟨1, 20⟩⟩ (by decide +kernel)
  obtain rfl := h₂.token_eq ⟨.comma, ",", ⟨2, 1⟩⟩ (by decide +kernel)
  obtain rfl := h₃.token_eq ⟨.endOfInput, "", ⟨1, 9⟩⟩ (by decide +kernel)
  exact ⟨⟨_, k₁, hname, rfl, by decide, h₁⟩, ⟨_, k₂, hmark, rfl, by decide, h₂⟩,
    ⟨_, k₃, hend, rfl, by decide, h₃⟩⟩

end ComponentGraph.DataType
