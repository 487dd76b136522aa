import ComponentGraph.Proofs.DataType.ViablePrefix

/-!
# Operations on one scanner

Tokens can be read one by one, with or without asking for kinds, and types can be read between
them, in any order and also after failures. All of these take tokens from the front of one stream:
a token each, and for a type its expression or the tokens up to the first that cannot be right.
What a type in the middle of a text is does not depend on what follows it.
-/

set_option autoImplicit false

namespace ComponentGraph

namespace DataType

open Lexeme Reading

/-- The tokens are an expression of the type, within the limit of nesting. -/
def Expresses (ts : List Token) (type : DataType) : Prop :=
  Derives (ts.map Token.lexeme) type ∧ type.depth ≤ 128

theorem expresses_iff_fits {ts : List Token} {type : DataType} :
    Expresses ts type ↔ Fits 0 (ts.map Token.lexeme) type := by
  constructor
  · rintro ⟨hderives, hdepth⟩
    exact ⟨hderives, by rwa [Nat.zero_add]⟩
  · rintro ⟨hderives, hdepth⟩
    exact ⟨hderives, by rwa [Nat.zero_add] at hdepth⟩

/-- The tokens of some text are an expression of a type and begin with these lexemes. -/
def BeginsType (ls : List Lexeme) : Prop :=
  ∃ text type, Expresses (Scanner.ofString text).tokens.1 type ∧
    ls <+: (Scanner.ofString text).tokens.1.map Token.lexeme

theorem BeginsType.viable {ls : List Lexeme} (h : BeginsType ls) : Viable ls := by
  obtain ⟨text, type, hexpresses, hls⟩ := h
  refine ⟨text, type, (parse_eq_ok_iff_derives text type).mpr hexpresses, hls.trans ?_⟩
  rw [lexemes, Scanner.stream, List.map_append]
  exact List.prefix_append _ _

/-- A beginning that is viable begins a type as long as the end of the input is not in it. -/
theorem Viable.beginsType {ls : List Lexeme} (h : Viable ls) (hls : ∀ l ∈ ls, l.Proper) :
    BeginsType ls := by
  obtain ⟨text, type, hok, hbegins⟩ := h
  refine ⟨text, type, (parse_eq_ok_iff_derives text type).mp hok, ?_⟩
  rw [lexemes, Scanner.stream_lexeme, List.prefix_concat_iff] at hbegins
  rw [Scanner.tokens_lexeme]
  refine hbegins.resolve_left ?_
  rintro rfl
  exact (hls .ending (by simp)).ne_ending rfl

section Awaits

variable {p : List Lexeme} {e : Expectation}

theorem Awaits.beginsType (h : Awaits 0 p e) (hp : ∀ l ∈ p, l.Proper) {ls : List Lexeme}
    (hls : ls <+: p) : BeginsType ls := by
  refine Viable.beginsType ?_ fun l hl => hp l (hls.mem hl)
  exact ((Expects.inside h).viable hp).of_beginning hls

theorem Awaits.not_beginsType (h : Awaits 0 p e) {l : Lexeme} (hn : ¬ e.Admits l) :
    ¬ BeginsType (p ++ [l]) := fun hbegins =>
  hn ((Expects.inside h).admits_of_viable hbegins.viable)

end Awaits

/-- The expression in front of a scanner is taken, whatever stands behind it. -/
theorem Expresses.yields {ts rest : List Token} {type : DataType} (h : Expresses ts type)
    {s : Scanner} (hs : s.tokens.1 = ts ++ rest) :
    ∃ stop, Yields (read s) type stop ∧ stop.tokens.1 = rest := by
  obtain ⟨stop, htakes, hrest⟩ := Scanner.exists_takes_of_tokens hs
  obtain ⟨hderives, hdepth⟩ := expresses_iff_fits.mp h
  exact ⟨stop, hderives.yields hdepth htakes, hrest⟩

theorem Expresses.result {ts rest : List Token} {type : DataType} (h : Expresses ts type)
    {s : Scanner} (hs : s.tokens.1 = ts ++ rest) :
    (read s).result = .ok type ∧ (read s).stop.tokens.1 = rest := by
  obtain ⟨stop, hyields, hrest⟩ := h.yields hs
  obtain ⟨hresult, hstop⟩ := hyields.result
  exact ⟨hresult, hstop ▸ hrest⟩

/-- The token that is blamed is the last one taken, whatever stands behind it. -/
theorem Awaits.result_of_take_stream {ts : List Token} {t : Token} {e : Expectation}
    (h : Awaits 0 (ts.map Token.lexeme) e) (hn : ¬ e.Admits t.lexeme) {s : Scanner}
    (hs : s.stream.take (ts.length + 1) = ts ++ [t]) :
    (read s).result = .error (e.fault t) ∧
      (read s).stop.tokens.1 = s.tokens.1.drop (ts.length + 1) := by
  obtain ⟨m, htakes, rfl⟩ := Scanner.exists_takes_of_take_stream hs
  obtain ⟨hresult, hstop⟩ := (h.fails htakes hn).result
  refine ⟨hresult, ?_⟩
  obtain ⟨ts', hts', htokens, -⟩ := htakes.exists_tokens
  have hlength : ts'.length = ts.length := by
    simpa using congrArg List.length hts'
  have hstop : (read s).stop.tokens.1 = m.tokens.1.tail := hstop ▸ m.read_tokens
  rw [hstop, htokens, ← hlength, List.drop_length_add_append, List.drop_one]

theorem Expresses.unique {ts ts' rest rest' : List Token} {type type' : DataType}
    (h : Expresses ts type) (h' : Expresses ts' type') (heq : ts ++ rest = ts' ++ rest')
    {s : Scanner} (hs : s.tokens.1 = ts ++ rest) : ts = ts' ∧ type = type' := by
  obtain ⟨hresult, hstop⟩ := h.result hs
  obtain ⟨hresult', hstop'⟩ := h'.result (hs.trans heq)
  obtain rfl : rest = rest' := hstop.symm.trans hstop'
  exact ⟨List.append_cancel_right heq, Except.ok.inj (hresult.symm.trans hresult')⟩

end DataType

namespace Scanner

open DataType Lexeme Reading

/-- What can be done with a scanner between two tokens. -/
inductive Operation
  | read
  | next
  | expect (kinds : List TokenKind)
  | type

/-- The scanner that is left, also when the operation fails. -/
def perform (s : Scanner) : Operation → Scanner
  | .read => s.read.2
  | .next => s.next?.2
  | .expect kinds => (s.expect kinds).2
  | .type => (DataType.read s).stop

def performAll (s : Scanner) (ops : List Operation) : Scanner := ops.foldl perform s

/-- Each operation on tokens is about the next token, the end of the input if there is no other,
and takes it away from the tokens. -/
structure ReadsTokens (s : Scanner) : Prop where
  read : s.stream.head? = some s.read.1 ∧ s.read.2.tokens.1 = s.tokens.1.tail
  next : s.next?.1 = s.tokens.1.head? ∧ s.next?.2.tokens.1 = s.tokens.1.tail
  expect : ∀ kinds, ((s.expect kinds).2.tokens.1 = s.tokens.1.tail) ∧
    ∀ t, (s.expect kinds).1 = .ok t ↔ s.stream.head? = some t ∧ t.kind ∈ kinds

/-- The token at `k` is the first with which the stream begins no type. -/
structure FirstStray (s : Scanner) (k : Nat) : Prop where
  lt_length : k < s.stream.length
  begins : ∀ j < k, BeginsType ((s.stream.take (j + 1)).map Token.lexeme)
  not_begins : ¬ BeginsType ((s.stream.take (k + 1)).map Token.lexeme)

/-- Reading a type takes the one expression in front, if there is one, and else the tokens up to
the first with which they begin no type. Any scanner with these tokens in front does the same. -/
structure ReadsType (s : Scanner) : Prop where
  ok_iff : ∀ type, (DataType.read s).result = .ok type ↔
    ∃ ts, ts <+: s.tokens.1 ∧ Expresses ts type
  unique : ∀ ts ts' type type', ts <+: s.tokens.1 → ts' <+: s.tokens.1 → Expresses ts type →
    Expresses ts' type' → ts = ts' ∧ type = type'
  taken : ∀ ts type, ts <+: s.tokens.1 → Expresses ts type →
    ∀ s' : Scanner, ts <+: s'.tokens.1 → (DataType.read s').result = .ok type ∧
      s'.tokens.1 = ts ++ (DataType.read s').stop.tokens.1
  error : ∀ f, (DataType.read s).result = .error f → ∃ k, s.FirstStray k ∧
    ∀ s' : Scanner, s'.stream.take (k + 1) = s.stream.take (k + 1) →
      (DataType.read s').result = .error f ∧
      (DataType.read s').stop.tokens.1 = s'.tokens.1.drop (k + 1)

theorem stream_head?_eq (s : Scanner) : s.stream.head? = some s.read.1 := by
  rw [List.head?_eq_getElem?, stream_head?]

theorem next?_eq_head? (s : Scanner) : s.next?.1 = s.tokens.1.head? := by
  by_cases h : s.read.1.kind = .endOfInput
  · simp [next?, h, tokens_of_endOfInput h]
  · simp [next?, h, tokens_cons h]

theorem expect_ok_iff {s : Scanner} {kinds : List TokenKind} {t : Token} :
    (s.expect kinds).1 = .ok t ↔ s.stream.head? = some t ∧ t.kind ∈ kinds := by
  rw [stream_head?_eq, Option.some.injEq]
  by_cases hkind : s.read.1.kind ∈ kinds
  · have hok : (s.expect kinds).1 = .ok s.read.1 := if_pos hkind
    rw [hok, Except.ok.injEq]
    exact ⟨fun h => ⟨h, h ▸ hkind⟩, And.left⟩
  · have herror : (s.expect kinds).1 = .error s.read.1.unexpected := if_neg hkind
    refine iff_of_false (by simp [herror]) ?_
    rintro ⟨rfl, ht⟩
    exact hkind ht

theorem readsTokens (s : Scanner) : s.ReadsTokens where
  read := ⟨s.stream_head?_eq, s.read_tokens⟩
  next := ⟨s.next?_eq_head?, s.read_tokens⟩
  expect _ := ⟨s.read_tokens, fun _ => expect_ok_iff⟩

theorem readsType (s : Scanner) : s.ReadsType where
  ok_iff type := by
    constructor
    · intro h
      rcases (read_meets s).yields_or_fails with ⟨type', hyields, ls, hls, hfit⟩ | ⟨f, hfails, -⟩
      · obtain rfl : type = type' := Except.ok.inj (h.symm.trans hyields.result.1)
        obtain ⟨ts, rfl, htokens, -⟩ := hls.exists_tokens
        exact ⟨ts, htokens ▸ List.prefix_append _ _, expresses_iff_fits.mpr hfit⟩
      · cases h.symm.trans hfails.result.1
    · rintro ⟨ts, ⟨rest, hrest⟩, hexpresses⟩
      exact (hexpresses.result hrest.symm).1
  unique := by
    rintro ts ts' type type' ⟨rest, hrest⟩ ⟨rest', hrest'⟩ h h'
    exact h.unique h' (hrest.trans hrest'.symm) hrest.symm
  taken := by
    rintro ts type - h s' ⟨rest, hrest⟩
    obtain ⟨hresult, hstop⟩ := h.result hrest.symm
    exact ⟨hresult, by rw [hstop, hrest]⟩
  error := by
    intro f h
    rcases (read_meets s).yields_or_fails with
      ⟨type, hyields, -⟩ | ⟨f', hfails, p, m, e, hp, ha, hn, rfl, hstop⟩
    · cases h.symm.trans hyields.result.1
    obtain rfl := Except.error.inj (h.symm.trans hfails.result.1)
    obtain ⟨ts, rfl, -, hstream⟩ := hp.exists_tokens
    have htake : s.stream.take (ts.length + 1) = ts ++ [m.read.1] := by
      rw [hstream, List.take_length_add_append, List.take_one, stream_head?_eq]
      rfl
    refine ⟨ts.length, ⟨?_, fun j hj => ?_, ?_⟩, fun s' hs' => ?_⟩
    · rw [hstream, List.length_append, stream, List.length_append, List.length_singleton]
      omega
    · rw [hstream, List.take_append_of_le_length hj]
      exact ha.beginsType (fun l hl => hp.proper hl) ((List.take_prefix _ _).map _)
    · rw [htake, List.map_append]
      exact ha.not_beginsType hn
    · exact ha.result_of_take_stream hn (hs'.trans htake)

theorem stream_perform_suffix (s : Scanner) (op : Operation) :
    (s.perform op).stream <:+ s.stream := by
  cases op with
  | read | next | expect => exact s.read_stream_suffix
  | type =>
    rw [perform]
    rcases (read_meets s).yields_or_fails with
      ⟨type, -, ls, hls, -⟩ | ⟨f, -, p, m, e, hp, -, -, -, hstop⟩
    · obtain ⟨ts, -, -, hstream⟩ := hls.exists_tokens
      exact hstream ▸ List.suffix_append _ _
    · obtain ⟨ts, -, -, hstream⟩ := hp.exists_tokens
      rw [hstop, hstream]
      exact m.read_stream_suffix.trans (List.suffix_append _ _)

theorem stream_performAll_suffix (s : Scanner) (ops : List Operation) :
    (s.performAll ops).stream <:+ s.stream := by
  induction ops generalizing s with
  | nil => exact List.suffix_rfl
  | cons op ops ih => exact (ih (s.perform op)).trans (s.stream_perform_suffix op)

/-- After any operations what is left to read is an end of the tokens of the text, and any further
operation takes what it takes from the front of that. -/
theorem performAll_reads (text : String) (ops : List Operation) :
    ((ofString text).performAll ops).stream <:+ (ofString text).stream ∧
      ((ofString text).performAll ops).ReadsTokens ∧
      ((ofString text).performAll ops).ReadsType :=
  ⟨stream_performAll_suffix _ ops, readsTokens _, readsType _⟩

end Scanner

end ComponentGraph
