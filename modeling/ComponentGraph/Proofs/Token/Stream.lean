import ComponentGraph.Proofs.Token.Lexeme

/-!
# The token stream of a scanner

`Takes` relates a scanner, the lexemes that are read from it and the scanner that is left, and
`stream` lists the tokens to come with the end of the input as the last one. `StandsAfter` is the
invariant on positions: the counters of a scanner and of its held character are those of the text
that was read.
-/

set_option autoImplicit false

namespace ComponentGraph

theorem Position.advance_pos {p : Position} (h : 0 < p.line ∧ 0 < p.column) (text : List Char) :
    0 < (p.advance text).line ∧ 0 < (p.advance text).column := by
  induction text generalizing p with
  | nil => exact h
  | cons c text ih =>
    apply ih
    rw [after]
    split
    · exact ⟨Nat.succ_pos _, Nat.one_pos⟩
    · exact ⟨h.1, Nat.succ_pos _⟩

namespace Scanner

open Lexeme

theorem word_eq (s : Scanner) :
    s.word.1 = s.unread.takeWhile isWordChar ∧
      s.word.2.unread = s.unread.dropWhile isWordChar := by
  fun_induction word s with
  | case1 s h => simp [pull_eq_none h]
  | case2 s c s' h hc more stop hw ih =>
    rw [hw] at ih
    rw [unread_of_pull h, List.takeWhile_cons_of_pos hc, List.dropWhile_cons_of_pos hc]
    exact ⟨congrArg (c.1 :: ·) ih.1, ih.2⟩
  | case3 s c s' h hc =>
    rw [unread_putBack (held_of_pull h), unread_of_pull h, List.takeWhile_cons_of_neg hc,
      List.dropWhile_cons_of_neg hc]
    exact ⟨rfl, rfl⟩

/-- At the end of the input nothing but white space is left, and reading goes on to say so. -/
theorem read_of_endOfInput {s : Scanner} (h : s.read.1.kind = .endOfInput) :
    s.read.1.lexeme = ending ∧ scan s.unread = [] ∧ s.read.2.read.1 = s.read.1 := by
  fun_induction read s with
  | case1 s hp =>
    refine ⟨rfl, by rw [pull_eq_none hp, scan_nil], ?_⟩
    rw [read]
    split
    · rfl
    · rename_i hp'
      cases hp.symm.trans hp'
  | case2 s c s' hp hc ih =>
    rw [unread_of_pull hp, scan_blank hc]
    exact ih h
  | case3 => cases h
  | case4 s c s' hp hb hw => exact absurd h (ofMark_ne_endOfInput c.1)

theorem scan_unread {s : Scanner} (h : s.read.1.kind ≠ .endOfInput) :
    scan s.unread = s.read.1.lexeme :: scan s.read.2.unread := by
  fun_induction read s with
  | case1 => exact absurd rfl h
  | case2 s c s' hp hc ih =>
    rw [unread_of_pull hp, scan_blank hc]
    exact ih h
  | case3 s c s' hp hb hc more stop hw =>
    have hword := s'.word_eq
    rw [hw] at hword
    rw [unread_of_pull hp, scan, if_neg hb, if_pos hc, ← hword.1, ← hword.2]
    rfl
  | case4 s c s' hp hb hc =>
    rw [unread_of_pull hp, scan_mark (by simpa using hb) (by simpa using hc)]
    rfl

theorem read_proper {s : Scanner} (h : s.read.1.kind ≠ .endOfInput) : s.read.1.lexeme.Proper := by
  have hmem : s.read.1.lexeme ∈ scan s.unread := by
    rw [scan_unread h]
    exact List.mem_cons_self
  exact proper_of_mem_scan hmem

theorem read_proper_or_ending (s : Scanner) :
    s.read.1.lexeme.Proper ∨ s.read.1.lexeme = ending := by
  by_cases h : s.read.1.kind = .endOfInput
  · exact .inr (read_of_endOfInput h).1
  · exact .inl (read_proper h)

theorem kind_eq_endOfInput_iff {s : Scanner} :
    s.read.1.kind = .endOfInput ↔ s.read.1.lexeme = ending :=
  ⟨fun h => (read_of_endOfInput h).1, fun h => congrArg Lexeme.kind h⟩

theorem lexeme_of_kind_eq_ofMark {s : Scanner} {c : Char} (hc : TokenKind.ofMark c ≠ .error)
    (h : s.read.1.kind = .ofMark c) : s.read.1.lexeme = mark c := by
  have hne : s.read.1.kind ≠ .endOfInput := h ▸ ofMark_ne_endOfInput c
  rcases read_proper hne with ⟨name, -, hname⟩ | ⟨c', -, -, hc'⟩
  · exact absurd (h.symm.trans (congrArg Lexeme.kind hname)) (ofMark_ne_identifier c)
  · rw [hc', ofMark_injective (h.symm.trans (congrArg Lexeme.kind hc')) hc]

/-- Reading one token after the other from the first scanner gives the lexemes, none of them the
end of the input, and ends in the second scanner. -/
def Takes : Scanner → List Lexeme → Scanner → Prop
  | s, [], s' => s = s'
  | s, l :: ls, s' => (s.read.1.kind ≠ .endOfInput ∧ s.read.1.lexeme = l) ∧ s.read.2.Takes ls s'

@[simp] theorem takes_nil {s s' : Scanner} : s.Takes [] s' ↔ s = s' := Iff.rfl

@[simp] theorem takes_cons {s s' : Scanner} {l : Lexeme} {ls : List Lexeme} :
    s.Takes (l :: ls) s' ↔
      (s.read.1.kind ≠ .endOfInput ∧ s.read.1.lexeme = l) ∧ s.read.2.Takes ls s' := Iff.rfl

@[simp] theorem takes_append {s s' : Scanner} {a b : List Lexeme} :
    s.Takes (a ++ b) s' ↔ ∃ m, s.Takes a m ∧ m.Takes b s' := by
  induction a generalizing s with
  | nil => simp
  | cons l a ih => simp [ih, and_assoc]

theorem Takes.append {s m s' : Scanner} {a b : List Lexeme} (ha : s.Takes a m)
    (hb : m.Takes b s') : s.Takes (a ++ b) s' := takes_append.mpr ⟨m, ha, hb⟩

theorem takes_mark {s : Scanner} {c : Char} (hc : TokenKind.ofMark c ≠ .error)
    (h : s.read.1.kind = .ofMark c) : s.Takes [mark c] s.read.2 :=
  ⟨⟨h ▸ ofMark_ne_endOfInput c, lexeme_of_kind_eq_ofMark hc h⟩, rfl⟩

theorem takes_word {s : Scanner} (h : s.read.1.kind = .identifier) :
    s.Takes [Lexeme.word s.read.1.text] s.read.2 :=
  ⟨⟨h ▸ TokenKind.noConfusion, congrArg (Lexeme.mk · s.read.1.text) h⟩, rfl⟩

theorem Takes.scan_eq {s s' : Scanner} {ls : List Lexeme} (h : s.Takes ls s') :
    scan s.unread = ls ++ scan s'.unread := by
  induction ls generalizing s with
  | nil =>
    cases h
    rfl
  | cons l ls ih =>
    obtain ⟨⟨hne, rfl⟩, h⟩ := h
    rw [scan_unread hne, ih h, List.cons_append]

theorem Takes.proper {s s' : Scanner} {ls : List Lexeme} (h : s.Takes ls s') {l : Lexeme}
    (hl : l ∈ ls) : l.Proper := by
  apply proper_of_mem_scan
  rw [h.scan_eq]
  exact List.mem_append_left _ hl

theorem exists_takes {s : Scanner} {ls rest : List Lexeme} (h : scan s.unread = ls ++ rest) :
    ∃ s', s.Takes ls s' ∧ scan s'.unread = rest := by
  induction ls generalizing s with
  | nil => exact ⟨s, rfl, h⟩
  | cons l ls ih =>
    have hne : s.read.1.kind ≠ .endOfInput := by
      intro he
      rw [(read_of_endOfInput he).2.1] at h
      cases h
    rw [scan_unread hne] at h
    obtain ⟨hl, hrest⟩ := List.cons.inj h
    obtain ⟨s', hs', h'⟩ := ih hrest
    exact ⟨s', ⟨⟨hne, hl⟩, hs'⟩, h'⟩

theorem read_of_scan_nil {s : Scanner} (h : scan s.unread = []) : s.read.1.lexeme = ending := by
  rw [← kind_eq_endOfInput_iff]
  refine Decidable.byContradiction fun hne => ?_
  rw [scan_unread hne] at h
  cases h

theorem tokens_lexeme (s : Scanner) : s.tokens.1.map Token.lexeme = scan s.unread := by
  fun_induction tokens s with
  | case1 s h => exact (read_of_endOfInput h).2.1.symm
  | case2 s h more stop hm ih =>
    rw [hm] at ih
    rw [scan_unread h, List.map_cons, ih]

/-- The tokens of a scanner, with the end of the input as the last one. -/
def stream (s : Scanner) : List Token := s.tokens.1 ++ [s.tokens.2.read.1]

theorem stream_of_endOfInput {s : Scanner} (h : s.read.1.kind = .endOfInput) :
    s.stream = [s.read.1] := by
  rw [stream, tokens, dif_pos h]
  exact congrArg (fun t => [t]) (read_of_endOfInput h).2.2

theorem stream_cons {s : Scanner} (h : s.read.1.kind ≠ .endOfInput) :
    s.stream = s.read.1 :: s.read.2.stream := by
  rw [stream, tokens, dif_neg h]
  rfl

theorem stream_head? (s : Scanner) : s.stream[0]? = some s.read.1 := by
  by_cases h : s.read.1.kind = .endOfInput
  · rw [stream_of_endOfInput h]
    rfl
  · rw [stream_cons h]
    rfl

theorem stream_lexeme (s : Scanner) :
    s.stream.map Token.lexeme = scan s.unread ++ [ending] := by
  rw [stream, List.map_append, tokens_lexeme, List.map_singleton]
  congr 2
  fun_induction tokens s with
  | case1 s h => rw [(read_of_endOfInput h).2.2, (read_of_endOfInput h).1]
  | case2 s h more stop hm ih =>
    rw [hm] at ih
    exact ih

theorem tokens_of_endOfInput {s : Scanner} (h : s.read.1.kind = .endOfInput) :
    s.tokens.1 = [] := by
  rw [tokens, dif_pos h]

theorem tokens_cons {s : Scanner} (h : s.read.1.kind ≠ .endOfInput) :
    s.tokens.1 = s.read.1 :: s.read.2.tokens.1 := by
  rw [tokens, dif_neg h]

theorem read_tokens (s : Scanner) : s.read.2.tokens.1 = s.tokens.1.tail := by
  by_cases h : s.read.1.kind = .endOfInput
  · have hagain := (read_of_endOfInput h).2.2
    rw [tokens_of_endOfInput h, tokens_of_endOfInput (hagain ▸ h), List.tail_nil]
  · rw [tokens_cons h, List.tail_cons]

theorem read_stream_suffix (s : Scanner) : s.read.2.stream <:+ s.stream := by
  by_cases h : s.read.1.kind = .endOfInput
  · have hagain := (read_of_endOfInput h).2.2
    have hsame : s.read.2.stream = s.stream := by
      rw [stream_of_endOfInput h, stream_of_endOfInput (hagain ▸ h), hagain]
    exact hsame ▸ List.suffix_rfl
  · rw [stream_cons h]
    exact List.suffix_cons _ _

/-- The tokens of the lexemes that were taken are in front of those that are left. -/
theorem Takes.exists_tokens {s s' : Scanner} {ls : List Lexeme} (h : s.Takes ls s') :
    ∃ ts, ts.map Token.lexeme = ls ∧ s.tokens.1 = ts ++ s'.tokens.1 ∧
      s.stream = ts ++ s'.stream := by
  induction ls generalizing s with
  | nil =>
    cases h
    exact ⟨[], rfl, rfl, rfl⟩
  | cons l ls ih =>
    obtain ⟨⟨hne, rfl⟩, h⟩ := h
    obtain ⟨ts, rfl, htokens, hstream⟩ := ih h
    refine ⟨s.read.1 :: ts, rfl, ?_, ?_⟩
    · rw [tokens_cons hne, htokens, List.cons_append]
    · rw [stream_cons hne, hstream, List.cons_append]

theorem exists_takes_of_tokens {s : Scanner} {ts rest : List Token}
    (h : s.tokens.1 = ts ++ rest) :
    ∃ s', s.Takes (ts.map Token.lexeme) s' ∧ s'.tokens.1 = rest := by
  induction ts generalizing s with
  | nil => exact ⟨s, rfl, h⟩
  | cons t ts ih =>
    have hne : s.read.1.kind ≠ .endOfInput := by
      intro he
      rw [tokens_of_endOfInput he] at h
      cases h
    rw [tokens_cons hne] at h
    obtain ⟨rfl, hrest⟩ := List.cons.inj h
    obtain ⟨s', hs', h'⟩ := ih hrest
    exact ⟨s', ⟨⟨hne, rfl⟩, hs'⟩, h'⟩

/-- The last of the tokens may be the end of the input. -/
theorem exists_takes_of_take_stream {s : Scanner} {ts : List Token} {t : Token}
    (h : s.stream.take (ts.length + 1) = ts ++ [t]) :
    ∃ s', s.Takes (ts.map Token.lexeme) s' ∧ s'.read.1 = t := by
  induction ts generalizing s with
  | nil =>
    refine ⟨s, rfl, ?_⟩
    have hhead := congrArg List.head? h
    rw [List.head?_take, if_neg (Nat.succ_ne_zero _), List.head?_eq_getElem?, stream_head?] at hhead
    exact Option.some.inj hhead
  | cons a ts ih =>
    have hne : s.read.1.kind ≠ .endOfInput := by
      intro he
      have hlength := congrArg List.length h
      simp [stream_of_endOfInput he] at hlength
    rw [stream_cons hne, List.length_cons, List.take_succ_cons] at h
    obtain ⟨rfl, hrest⟩ := List.cons.inj h
    obtain ⟨s', hs', h'⟩ := ih hrest
    exact ⟨s', ⟨⟨hne, rfl⟩, hs'⟩, h'⟩

/-- What stands in the stream behind the lexemes that were taken is the next token. -/
theorem Takes.stream_getElem? {s s' : Scanner} {ls : List Lexeme} (h : s.Takes ls s') :
    s.stream[ls.length]? = some s'.read.1 := by
  induction ls generalizing s with
  | nil =>
    cases h
    exact stream_head? _
  | cons l ls ih =>
    obtain ⟨⟨hne, -⟩, h⟩ := h
    rw [stream_cons hne, List.length_cons, List.getElem?_cons_succ]
    exact ih h

theorem Takes.stream_lexeme {s s' : Scanner} {ls : List Lexeme} (h : s.Takes ls s') :
    s.stream.map Token.lexeme = ls ++ s'.stream.map Token.lexeme := by
  rw [Scanner.stream_lexeme, Scanner.stream_lexeme, h.scan_eq, List.append_assoc]

theorem Takes.take_stream {s s' : Scanner} {ls : List Lexeme} (h : s.Takes ls s') :
    (s.stream.map Token.lexeme).take (ls.length + 1) = ls ++ [s'.read.1.lexeme] := by
  rw [h.stream_lexeme, List.take_length_add_append, List.take_one, List.head?_eq_getElem?,
    List.getElem?_map, stream_head?]
  rfl

theorem exists_takes_of_stream {s : Scanner} {ls : List Lexeme} {l : Lexeme}
    (h : ls ++ [l] <+: s.stream.map Token.lexeme) :
    ∃ s', s.Takes ls s' ∧ s'.read.1.lexeme = l := by
  obtain ⟨rest, hrest⟩ := h
  rw [stream_lexeme] at hrest
  have hlength : ls.length ≤ (scan s.unread).length := by
    have := congrArg List.length hrest
    simp only [List.length_append, List.length_singleton] at this
    omega
  have hls : ls <+: scan s.unread ++ [ending] := by
    rw [← hrest, List.append_assoc]
    exact List.prefix_append _ _
  obtain ⟨ls', hls'⟩ :=
    List.prefix_of_prefix_length_le hls (List.prefix_append _ [ending]) hlength
  obtain ⟨s', htakes, -⟩ := exists_takes hls'.symm
  refine ⟨s', htakes, ?_⟩
  rw [← stream_lexeme, htakes.stream_lexeme, List.append_assoc, List.append_cancel_left_eq] at hrest
  have hhead : (s'.stream.map Token.lexeme)[0]? = some s'.read.1.lexeme := by
    rw [List.getElem?_map, stream_head?, Option.map_some]
  rw [← hrest] at hhead
  exact (Option.some.inj hhead).symm

/-- The scanner has read `before` and its positions are those of that text. -/
structure StandsAfter (text before : List Char) (s : Scanner) : Prop where
  text_eq : text = before ++ s.unread
  here_eq : s.here = Position.start.advance before
  position_eq : ∀ c ∈ s.held, s.position = c.2.after c.1

theorem standsAfter_ofString (text : String) : (ofString text).StandsAfter text.toList [] where
  text_eq := rfl
  here_eq := rfl
  position_eq _ hc := by cases hc

namespace StandsAfter

variable {text before : List Char} {s : Scanner}

theorem pull {c : Char × Position} {s' : Scanner} (h : s.StandsAfter text before)
    (hp : s.pull = some (c, s')) :
    c.2 = Position.start.advance before ∧ s'.StandsAfter text (before ++ [c.1]) := by
  have hunread := unread_of_pull hp
  have hpos : c.2 = s.here ∧ s'.here = c.2.after c.1 := by
    unfold Scanner.pull at hp
    split at hp
    · rename_i hheld
      cases hp
      exact ⟨by rw [here, hheld], h.position_eq _ hheld⟩
    · rename_i hheld
      split at hp
      · cases hp
      · cases hp
        exact ⟨by rw [here, hheld], rfl⟩
  refine ⟨hpos.1.trans h.here_eq, ?_, ?_, ?_⟩
  · rw [h.text_eq, hunread, List.append_assoc, List.singleton_append]
  · rw [Position.advance_append, ← h.here_eq, ← hpos.1]
    exact hpos.2
  · rw [held_of_pull hp]
    exact fun _ hc => by cases hc

theorem word (h : s.StandsAfter text before) :
    s.word.2.StandsAfter text (before ++ s.word.1) := by
  fun_induction Scanner.word s generalizing before with
  | case1 s hp => rwa [List.append_nil]
  | case2 s c s' hp hc more stop hw ih =>
    have := ih (h.pull hp).2
    rwa [hw, List.append_assoc] at this
  | case3 s c s' hp hc =>
    obtain ⟨hc2, hs'⟩ := h.pull hp
    have hheld := held_of_pull hp
    rw [List.append_nil]
    refine ⟨?_, hc2, ?_⟩
    · rw [unread_putBack hheld, ← unread_of_pull hp]
      exact h.text_eq
    · rintro _ ⟨⟩
      have hhere := hs'.here_eq
      rw [here, hheld, Position.advance_append, ← hc2] at hhere
      exact hhere

/-- A token stands behind white space, at the position that is counted up to there. -/
theorem read (h : s.StandsAfter text before) :
    ∃ blanks, (∀ c ∈ blanks, isBlank c = true) ∧
      s.read.1.position = Position.start.advance (before ++ blanks) ∧
      s.read.2.StandsAfter text (before ++ blanks ++ s.read.1.text.toList) := by
  fun_induction Scanner.read s generalizing before with
  | case1 s hp =>
    refine ⟨[], by simp, ?_, ?_⟩
    · rw [List.append_nil]
      exact h.here_eq
    · simpa using h
  | case2 s c s' hp hc ih =>
    obtain ⟨blanks, hblanks, hpos, hs⟩ := ih (h.pull hp).2
    refine ⟨c.1 :: blanks, ?_, ?_, ?_⟩
    · exact List.forall_mem_cons.mpr ⟨hc, hblanks⟩
    · rwa [List.append_cons]
    · rwa [List.append_cons]
  | case3 s c s' hp hb hc more stop hw =>
    obtain ⟨hc2, hs'⟩ := h.pull hp
    have := hs'.word
    rw [hw] at this
    refine ⟨[], by simp, by rwa [List.append_nil], ?_⟩
    rwa [List.append_nil, String.toList_ofList, List.append_cons]
  | case4 s c s' hp =>
    obtain ⟨hc2, hs'⟩ := h.pull hp
    refine ⟨[], by simp, by rwa [List.append_nil], ?_⟩
    have htext : c.1.toString.toList = [c.1] := String.toList_singleton c.1
    rwa [List.append_nil, htext]

end StandsAfter

theorem Takes.standsAfter {s s' : Scanner} {ls : List Lexeme} {text before : List Char}
    (h : s.Takes ls s') (hs : s.StandsAfter text before) :
    ∃ before', s'.StandsAfter text before' := by
  induction ls generalizing s before with
  | nil =>
    cases h
    exact ⟨before, hs⟩
  | cons l ls ih =>
    obtain ⟨blanks, -, -, hread⟩ := hs.read
    exact ih h.2 hread

theorem position_pos_of_takes {text : String} {ls : List Lexeme} {s : Scanner}
    (h : (ofString text).Takes ls s) :
    0 < s.read.1.position.line ∧ 0 < s.read.1.position.column := by
  obtain ⟨before, hbefore⟩ := h.standsAfter (standsAfter_ofString text)
  obtain ⟨blanks, -, hposition, -⟩ := hbefore.read
  rw [hposition]
  exact Position.advance_pos ⟨Nat.one_pos, Nat.one_pos⟩ _

end Scanner

end ComponentGraph
