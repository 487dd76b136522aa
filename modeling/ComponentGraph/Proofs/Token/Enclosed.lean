import ComponentGraph.Proofs.Token.Exact

/-!
# Tokens of an enclosed text

When a text is put in parentheses behind a word, its tokens stay, each moved to its place in the
longer text, and the closing parenthesis stands where the text ended. No two tokens of a text have
the same position, so that a position tells the token.
-/

set_option autoImplicit false

namespace ComponentGraph

namespace Position

theorem after_within {p : Position} (hline : 0 < p.line) (hcolumn : 0 < p.column)
    (origin : Position) (c : Char) : (p.within origin).after c = (p.after c).within origin := by
  unfold after within
  by_cases hc : c = '\n'
  · have hlater : p.line + 1 ≠ 1 := by omega
    simp only [hc, if_true, hlater, if_false, mk.injEq, and_true]
    omega
  · by_cases hfirst : p.line = 1
    · simp only [hc, if_false, hfirst, if_true, mk.injEq, true_and]
      omega
    · simp only [hc, if_false, hfirst]

theorem advance_within {p : Position} (h : 0 < p.line ∧ 0 < p.column) (origin : Position)
    (text : List Char) : (p.within origin).advance text = (p.advance text).within origin := by
  induction text generalizing p with
  | nil => rfl
  | cons c text ih =>
    rw [advance_cons, after_within h.1 h.2]
    exact ih (advance_pos h [c])

theorem start_within (origin : Position) : start.within origin = origin := by
  simp [start, within]

theorem behind_append (before text : List Char) :
    behind (before ++ text) = (behind text).within (behind before) :=
  calc behind (before ++ text)
    _ = (start.within (behind before)).advance text := by rw [start_within, advance_behind]
    _ = (start.advance text).within (behind before) :=
      advance_within ⟨Nat.one_pos, Nat.one_pos⟩ _ text
    _ = (behind text).within (behind before) := by rw [start_advance]

theorem behind_append_ne (before : List Char) {text : List Char} (hne : text ≠ []) :
    behind (before ++ text) ≠ behind before := by
  intro h
  rw [behind_append, within, behind] at h
  obtain ⟨hline, hcolumn⟩ := mk.inj h
  have hfree : text.count '\n' = 0 := by
    simp only [behind] at hline
    omega
  -- Without a newline it is the column that grows.
  have hall : ∀ c ∈ text.reverse, (c != '\n') = true := by
    intro c hc
    rw [bne_iff_ne]
    rintro rfl
    exact List.count_eq_zero.mp hfree (List.mem_reverse.mp hc)
  rw [hfree, if_pos rfl, List.takeWhile_eq_self_iff.mpr hall, List.length_reverse] at hcolumn
  have := List.length_pos_iff.mpr hne
  simp only [behind] at hcolumn
  omega

end Position

namespace Token

variable {before : List Char} {c : Char}

theorem scanFrom_blank (hc : c ∈ blanks) (text : List Char) :
    scanFrom before (c :: text) = scanFrom (before ++ [c]) text := by
  rw [scanFrom, if_pos hc]

theorem scanFrom_run (hc : startsWord c = true) (text : List Char) :
    scanFrom before (c :: text) =
      ⟨.identifier, String.ofList (c :: text.takeWhile continuesWord), .behind before⟩ ::
        scanFrom (before ++ c :: text.takeWhile continuesWord)
          (text.dropWhile continuesWord) := by
  rw [scanFrom, if_neg (not_mem_blanks (continuesWord_of_startsWord hc)), if_pos hc]

theorem append_run (before : List Char) (c : Char) (text : List Char) :
    before ++ c :: text.takeWhile continuesWord ++ text.dropWhile continuesWord =
      before ++ c :: text := by
  rw [List.append_assoc, List.cons_append, List.takeWhile_append_dropWhile]

theorem scanFrom_mark (hc : c ∉ blanks) (hw : ¬ startsWord c = true) (text : List Char) :
    scanFrom before (c :: text) =
      ⟨(punctuation.lookup c).getD .error, c.toString, .behind before⟩ ::
        scanFrom (before ++ [c]) text := by
  rw [scanFrom, if_neg hc, if_neg hw]

/-- The token in a text in which its own text starts at `origin`. -/
def moved (origin : Position) (t : Token) : Token :=
  { t with position := t.position.within origin }

theorem scanFrom_moved (before inner text : List Char) :
    scanFrom (before ++ inner) text = (scanFrom inner text).map (moved (.behind before)) := by
  fun_induction scanFrom inner text with
  | case1 => rw [scanFrom_nil, List.map_nil]
  | case2 inner c text hc ih => rw [scanFrom_blank hc, List.append_assoc, ih]
  | case3 inner c text hc hw run ih =>
    rw [scanFrom_run hw, List.append_assoc, ih, Position.behind_append]
    rfl
  | case4 inner c text hc hw ih =>
    rw [scanFrom_mark hc hw, List.append_assoc, ih, Position.behind_append]
    rfl

theorem scanFrom_append (before a b : List Char) (h : ∀ c ∈ b.head?, continuesWord c = false) :
    scanFrom before (a ++ b) = scanFrom before a ++ scanFrom (before ++ a) b := by
  fun_induction scanFrom before a with
  | case1 before => rw [List.append_nil, List.nil_append, List.nil_append]
  | case2 before c a hc ih =>
    rw [List.cons_append, scanFrom_blank hc, ih, ← List.append_cons]
  | case3 before c a hc hw run ih =>
    obtain ⟨htake, hdrop⟩ := Lexeme.takeWhile_append_stop (a := a) fun _ => h
    rw [List.cons_append, scanFrom_run hw, htake, hdrop, ih, append_run, List.cons_append]
  | case4 before c a hc hw ih =>
    rw [List.cons_append, scanFrom_mark hc hw, ih, ← List.append_cons, List.cons_append]

theorem scanFrom_word {name : String} (h : IsIdentifier name) (before : List Char) :
    scanFrom before name.toList = [⟨.identifier, name, .behind before⟩] := by
  obtain ⟨c, rest, hname, hc, hrest⟩ := h
  rw [isWordStart_eq] at hc
  rw [isWordChar_eq] at hrest
  rw [hname, scanFrom_run hc, List.takeWhile_eq_self_iff.mpr hrest,
    List.dropWhile_eq_nil_iff.mpr hrest, scanFrom_nil, ← hname, String.ofList_toList]

/-- The tokens stand behind the text, each at a place of its own. -/
structure Spread (before : List Char) (ts : List Token) : Prop where
  behind : ∀ t ∈ ts, ∃ between, t.position = .behind (before ++ between)
  nodup : (ts.map Token.position).Nodup

namespace Spread

variable {run : List Char} {ts : List Token} {t : Token}

theorem of_append (h : Spread (before ++ run) ts) : Spread before ts where
  behind t ht := by
    obtain ⟨between, hbetween⟩ := h.behind t ht
    exact ⟨run ++ between, by rw [hbetween, List.append_assoc]⟩
  nodup := h.nodup

theorem cons (h : Spread (before ++ run) ts) (hrun : run ≠ [])
    (ht : t.position = .behind before) : Spread before (t :: ts) where
  behind := by
    refine List.forall_mem_cons.mpr ⟨⟨[], by rw [ht, List.append_nil]⟩, h.of_append.behind⟩
  nodup := by
    refine List.nodup_cons.mpr ⟨fun hmem => ?_, h.nodup⟩
    obtain ⟨u, hu, hposition⟩ := List.mem_map.mp hmem
    obtain ⟨between, hbetween⟩ := h.behind u hu
    rw [hposition, ht, List.append_assoc] at hbetween
    exact Position.behind_append_ne before (List.append_ne_nil_of_left_ne_nil hrun _) hbetween.symm

end Spread

theorem spread_scanFrom {before text whole : List Char} (h : whole = before ++ text) :
    Spread before (scanFrom before text ++ [ending whole]) := by
  fun_induction scanFrom before text with
  | case1 before =>
    refine ⟨List.forall_mem_singleton.mpr ⟨[], ?_⟩, by simp⟩
    rw [h]
    rfl
  | case2 before c text hc ih => exact (ih (by rwa [← List.append_cons])).of_append
  | case3 before c text hc hw run ih =>
    exact .cons (ih (by rw [h, append_run])) (List.cons_ne_nil _ _) rfl
  | case4 before c text hc hw ih =>
    exact .cons (ih (by rwa [← List.append_cons])) (List.cons_ne_nil _ _) rfl

/-- The token in a text in which its own text stands in parentheses. The end of the one is the
closing parenthesis of the other. -/
def enclosed (origin : Position) (t : Token) : Token :=
  if t.kind = .endOfInput then ⟨.closeParen, ")", t.position.within origin⟩ else t.moved origin

theorem position_enclosed (origin : Position) (t : Token) :
    (t.enclosed origin).position = t.position.within origin := by
  rw [enclosed]
  split <;> rfl

theorem map_enclosed_scanFrom (before text : List Char) :
    (scanFrom [] text ++ [ending text]).map (enclosed (.behind before)) =
      scanFrom before (text ++ [')']) := by
  have hmoved : (scanFrom [] text).map (enclosed (.behind before)) = scanFrom before text := by
    have hbefore := scanFrom_moved before [] text
    rw [List.append_nil] at hbefore
    rw [hbefore]
    exact List.map_congr_left fun t ht => if_neg (kind_ne_of_mem_scanFrom ht)
  have hmark : startsWord ')' = false ∧ continuesWord ')' = false := by decide
  rw [scanFrom_append _ _ _ (by simpa using hmark.2), List.map_append, hmoved,
    scanFrom_mark (by decide) (by simp [hmark.1]), scanFrom_nil, Position.behind_append]
  rfl

end Token

namespace Scanner

open Token

theorem StandsAfter.stream_eq {text before : List Char} {s : Scanner}
    (h : s.StandsAfter text before) :
    s.stream = scanFrom before s.unread ++ [Token.ending text] := by
  fun_induction Scanner.tokens s generalizing before with
  | case1 s hend =>
    obtain ⟨before', -, hread | ⟨hnone, -, hread⟩⟩ := h.read_scanFrom
    · have hmem : s.read.1 ∈ scanFrom before s.unread := hread ▸ List.mem_cons_self
      exact absurd hend (kind_ne_of_mem_scanFrom hmem)
    · rw [stream_of_endOfInput hend, hnone, hread, List.nil_append]
  | case2 s hne more stop hm ih =>
    obtain ⟨before', hs', hread | ⟨-, -, hend⟩⟩ := h.read_scanFrom
    · rw [stream_cons hne, hread, ih hs', List.cons_append]
    · exact absurd (congrArg Token.kind hend) hne

theorem stream_ofString (text : String) :
    (ofString text).stream = scanFrom [] text.toList ++ [Token.ending text.toList] :=
  (standsAfter_ofString text).stream_eq

theorem nodup_positions (text : String) :
    ((ofString text).stream.map Token.position).Nodup := by
  rw [stream_ofString]
  exact (spread_scanFrom rfl).nodup

/-- A word and a parenthesis stand in front of the tokens of an enclosed text. -/
theorem stream_enclosed {word : String} (h : IsIdentifier word) (text : String) :
    (ofString (word ++ "(" ++ text ++ ")")).stream =
      ⟨.identifier, word, .start⟩ :: ⟨.openParen, "(", .behind word.toList⟩ ::
        ((ofString text).stream.map (enclosed (.behind (word.toList ++ ['(']))) ++
          [Token.ending (word ++ "(" ++ text ++ ")").toList]) := by
  have htext : (word ++ "(" ++ text ++ ")").toList =
      word.toList ++ '(' :: (text.toList ++ [')']) := by simp
  have hmark : startsWord '(' = false ∧ continuesWord '(' = false := by decide
  rw [stream_ofString, stream_ofString, map_enclosed_scanFrom, htext,
    scanFrom_append _ _ _ (by simpa using hmark.2), scanFrom_word h, List.nil_append,
    scanFrom_mark (by decide) (by simp [hmark.1])]
  rfl

end Scanner

end ComponentGraph
