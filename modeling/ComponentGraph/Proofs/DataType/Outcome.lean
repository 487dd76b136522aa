import ComponentGraph.Proofs.DataType.Expectation
import ComponentGraph.Proofs.Token.Reading

/-!
# What the outcome of parsing tells

A parsed type has an expression in front of the scanner, and the scanner stops behind it. A fault
blames a token that is not admitted where it stands, and the scanner stops behind that token. Each
function of the parser has one lemma that says both.
-/

set_option autoImplicit false

namespace ComponentGraph.DataType

open Lexeme Reading

/-- The fault blames the token behind a beginning for not being admitted there. -/
def Blames (s : Scanner) (awaits : List Lexeme → Expectation → Prop) (f : Fault)
    (stop : Scanner) : Prop :=
  ∃ p m e, s.Takes p m ∧ awaits p e ∧ ¬ e.Admits m.read.1.lexeme ∧
    f = e.fault m.read.1 ∧ stop = m.read.2

theorem Blames.intro {s m : Scanner} {awaits : List Lexeme → Expectation → Prop}
    {p : List Lexeme} {e : Expectation} {f : Fault} (hs : s.Takes p m) (ha : awaits p e)
    (hn : ¬ e.Admits m.read.1.lexeme) (hf : f = e.fault m.read.1) :
    Blames s awaits f m.read.2 := ⟨p, m, e, hs, ha, hn, hf, rfl⟩

theorem Blames.after {s m : Scanner} {inner outer : List Lexeme → Expectation → Prop}
    {a : List Lexeme} {f : Fault} {stop : Scanner} (h : Blames m inner f stop)
    (hs : s.Takes a m) (ha : ∀ p e, inner p e → outer (a ++ p) e) : Blames s outer f stop := by
  obtain ⟨p, m', e, hp, he, hn, hf, hstop⟩ := h
  exact ⟨a ++ p, m', e, hs.append hp, ha p e he, hn, hf, hstop⟩

theorem not_admits_marks {c : Char} {l : Lexeme} (h : l ≠ mark c) :
    ¬ (Expectation.marks [c]).Admits l := by
  rintro ⟨d, hd, hl⟩
  exact h (List.mem_singleton.mp hd ▸ hl)

theorem contains_empty (name : String) :
    (∅ : Fields).contains name = true ↔ name ∈ ([] : List String) := by
  simp [SortedEntries.contains, EmptyCollection.emptyCollection, SortedEntries.get?_nil]

theorem startingWith_of_word {first : Token} {w : TypeWord} {depth : Nat}
    (h : first.lexeme = word w.text) (hd : w.isContainer = true → depth < maxDepth)
    (s : Scanner) : startingWith first depth s = ofWord w depth s := by
  have hkind : first.kind = .identifier := congrArg kind h
  have htext : first.text = w.text := congrArg Lexeme.text h
  rw [startingWith, if_neg (by simpa using hkind)]
  simp only [TypeWord.ofText?_eq_some_iff.mpr htext]
  refine if_neg ?_
  simpa using hd

theorem startingWith_of_not_admits {first : Token} {depth : Nat}
    (h : ¬ (Expectation.type depth false).Admits first.lexeme) (s : Scanner) :
    startingWith first depth s = .fail s ((Expectation.type depth false).fault first) := by
  rw [startingWith, Expectation.fault, Expectation.complaint]
  by_cases hkind : first.kind = .identifier
  · simp only [hkind, ne_eq, not_true_eq_false, if_false, if_true]
    cases hw : TypeWord.ofText? first.text with
    | none => rfl
    | some w =>
      have hword : first.lexeme = word w.text :=
        congrArg₂ Lexeme.mk hkind (TypeWord.ofText?_eq_some_iff.mp hw)
      have hdeep : w.isContainer = true ∧ maxDepth ≤ depth := by
        refine Decidable.byContradiction fun hn => h (.inl ⟨w, hword, fun hc => ?_⟩)
        exact Nat.lt_of_not_le fun hle => hn ⟨hc, hle⟩
      simp [hdeep.1, hdeep.2]
  · simp only [hkind, ne_eq, not_false_eq_true, if_true, if_false, Token.unexpected]

-- The recursion follows that of the parser, on the text that is unread.
mutual

theorem startingWith_meets (depth : Nat) (hd : depth ≤ maxDepth) (s : Scanner) :
    (startingWith s.read.1 depth s.read.2).Meets
      (fun type stop => ∃ ls, s.Takes ls stop ∧ Fits depth ls type)
      (Blames s (Awaits depth)) := by
  by_cases h : (Expectation.type depth false).Admits s.read.1.lexeme
  · obtain ⟨w, hw, hlimit⟩ | ⟨hf, -⟩ := h
    · have hkind : s.read.1.kind = .identifier := congrArg kind hw
      have hne : s.read.1.kind ≠ .endOfInput := hkind ▸ TokenKind.noConfusion
      have hword : s.Takes [word w.text] s.read.2 := ⟨⟨hne, hw⟩, rfl⟩
      have hlt := Scanner.read_length_lt hne
      rw [startingWith_of_word hw hlimit]
      refine (ofWord_meets w depth hd hlimit s.read.2).mono ?_ ?_
      · rintro type stop ⟨ls, hls, hfit⟩
        exact ⟨_, hword.append hls, hfit⟩
      · intro f stop hb
        exact hb.after hword fun p e ha => ha
    · cases hf
  · rw [startingWith_of_not_admits h, meets_fail]
    exact Blames.intro (p := []) rfl .type h rfl
termination_by 2 * s.unread.length

theorem ofWord_meets (w : TypeWord) (depth : Nat) (hd : depth ≤ maxDepth)
    (hw : w.isContainer = true → depth < maxDepth) (s : Scanner) :
    (ofWord w depth s).Meets
      (fun type stop => ∃ ls, s.Takes ls stop ∧ Fits depth (word w.text :: ls) type)
      (Blames s fun p => Awaits depth (word w.text :: p)) := by
  have hle := s.read_length_le
  cases w with
  | string =>
    rw [ofWord, meets_done]
    exact ⟨[], rfl, .string, hd⟩
  | int =>
    rw [ofWord, meets_done]
    exact ⟨[], rfl, .int, hd⟩
  | bool =>
    rw [ofWord, meets_done]
    exact ⟨[], rfl, .bool, hd⟩
  | list =>
    rw [ofWord]
    have hd' := hw rfl
    refine meets_expecting_mark '<' (by decide) ?_ fun ho hlt => ?_
    · exact fun h => .intro (p := []) rfl (.opening rfl hd') (not_admits_marks h) rfl
    simp only [meets_taking, meets_andThen]
    refine (startingWith_meets (depth + 1) hd' s.read.2).mono ?_ ?_
    · rintro element s₁ ⟨ls, hls, hfit⟩ -
      refine meets_expecting_mark '>' (by decide) ?_ fun hc _ => ?_
      · exact fun h => .intro (ho.append hls) (.listClose hfit) (not_admits_marks h) rfl
      · exact ⟨_, ho.append (hls.append hc), hfit.list⟩
    · intro f stop hb
      exact hb.after ho fun p e h => .listElement hd' h
  | map =>
    rw [ofWord]
    have hd' := hw rfl
    have hle' := s.read.2.read_length_le
    refine meets_expecting_mark '<' (by decide) ?_ fun ho hlt => ?_
    · exact fun h => .intro (p := []) rfl (.opening rfl hd') (not_admits_marks h) rfl
    simp only [meets_taking, meets_andThen]
    refine (startingWith_meets (depth + 1) hd' s.read.2).mono ?_ ?_
    · rintro key s₁ ⟨ks, hks, hkey⟩ hle₁
      refine meets_expecting_mark ',' (by decide) ?_ fun hm hlt₁ => ?_
      · exact fun h => .intro (ho.append hks) (.mapComma hkey) (not_admits_marks h) rfl
      have hopen := ho.append (hks.append hm)
      simp only [meets_taking, meets_andThen]
      refine (startingWith_meets (depth + 1) hd' s₁.read.2).mono ?_ ?_
      · rintro value s₂ ⟨vs, hvs, hvalue⟩ -
        refine meets_expecting_mark '>' (by decide) ?_ fun hc _ => ?_
        · intro h
          refine .intro (hopen.append hvs) ?_ (not_admits_marks h) rfl
          simpa [TypeWord.text] using Awaits.mapClose hkey hvalue
        · exact ⟨_, ho.append (hks.append (hm.append (hvs.append hc))), hkey.map hvalue⟩
      · intro f stop hb
        refine hb.after hopen fun p e h => ?_
        simpa [TypeWord.text] using Awaits.mapValue hkey h
    · intro f stop hb
      exact hb.after ho fun p e h => .mapKey hd' h
  | record =>
    rw [ofWord]
    have hd' := hw rfl
    refine meets_expecting_mark '<' (by decide) ?_ fun ho hlt => ?_
    · exact fun h => .intro (p := []) rfl (.opening rfl hd') (not_admits_marks h) rfl
    rw [meets_map]
    refine (fieldsAfter_meets ∅ [] contains_empty true (depth + 1) hd' s.read.2).mono ?_ ?_
    · rintro fields stop ⟨ls, fs, hls, hclose, rfl⟩
      exact ⟨_, ho.append hls, hclose.fits hd'⟩
    · intro f stop hb
      exact hb.after ho fun p e h => .recordFields hd' h
termination_by 2 * s.unread.length + 1

theorem fieldsAfter_meets (known : Fields) (names : List String)
    (hk : ∀ n, known.contains n = true ↔ n ∈ names) (start : Bool) (depth : Nat)
    (hd : depth ≤ maxDepth) (s : Scanner) :
    (fieldsAfter known start depth s).Meets
      (fun m stop => ∃ ls fields, s.Takes ls stop ∧ ClosesRecord depth start names ls fields ∧
        m = known.insertAll fields)
      (Blames s (AwaitsFields depth start names)) := by
  have hle := s.read_length_le
  rw [fieldsAfter, meets_taking]
  split
  · rename_i hclose
    simp only [Bool.and_eq_true, beq_iff_eq] at hclose
    exact ⟨_, [], Scanner.takes_mark (c := '>') (by decide) hclose.2,
      .inl ⟨hclose.1, rfl, rfl⟩, rfl⟩
  rename_i hopen
  simp only [Bool.and_eq_true, beq_iff_eq] at hopen
  rw [meets_andThen]
  refine (startingWith_meets depth hd s).mono ?_ ?_
  · rintro type s₁ ⟨ls, hls, hfit⟩ hle₁
    refine meets_expecting_word ?_ fun hname hlt₁ => ?_
    · intro hkind
      refine .intro hls (.name hfit) ?_ ?_
      · rintro ⟨name, -, hl⟩
        exact hkind (congrArg kind hl)
      · simp [Expectation.fault, Expectation.complaint, hkind, Token.unexpected]
    have hkind : s₁.read.1.kind = .identifier := congrArg kind hname.1.2
    split
    · rename_i hdup
      refine .intro hls (.name hfit) ?_ ?_
      · rintro ⟨name, hnew, hl⟩
        have hsame : s₁.read.1.text = name := congrArg Lexeme.text hl
        exact hnew (hsame ▸ (hk _).mp hdup)
      · simp [Expectation.fault, Expectation.complaint, hkind]
    rename_i hnew
    rw [hk] at hnew
    refine meets_expecting ?_ fun hsep hlt₂ => ?_
    · intro hbad
      refine .intro (hls.append hname) (.separator hfit hnew) ?_ rfl
      rintro ⟨c, hc, hl⟩
      have hkind : s₁.read.2.read.1.kind = .ofMark c := congrArg kind hl
      rw [hkind] at hbad
      simp only [List.mem_cons, List.not_mem_nil, or_false] at hc
      rcases hc with rfl | rfl <;> exact hbad (by decide)
    split
    · rename_i hclose
      have hclose := Scanner.takes_mark (c := '>') (by decide) hclose
      exact ⟨_, _, hls.append (hname.append hclose), .last hfit hnew, rfl⟩
    · rename_i hcomma
      have hcomma : s₁.read.2.read.1.kind = .comma := by simpa [hcomma] using hsep
      have hcomma := Scanner.takes_mark (c := ',') (by decide) hcomma
      have hseparated := hls.append (hname.append hcomma)
      have hk' : ∀ n, (known.insert s₁.read.1.text type).contains n = true ↔
          n ∈ s₁.read.1.text :: names := by
        intro n
        rw [SortedEntries.contains_insert, hk, List.mem_cons]
      refine (fieldsAfter_meets _ _ hk' false depth hd s₁.read.2.read.2).mono ?_ ?_
      · rintro m stop ⟨rest, fields, hrest, hclose, rfl⟩
        refine ⟨_, (_, type) :: fields, hseparated.append hrest, ?_, rfl⟩
        simpa using ClosesRecord.more hfit hnew hclose
      · intro f stop hb
        refine hb.after hseparated fun p e h => ?_
        simpa using AwaitsFields.more hfit hnew h
  · rintro f stop ⟨p, m, e, hp, ha, hn, rfl, rfl⟩
    by_cases hstart : start = true ∧ p = []
    · obtain ⟨rfl, rfl⟩ := hstart
      cases ha
      cases hp
      refine .intro (p := []) rfl .start ?_ rfl
      rintro (h | ⟨-, h⟩)
      · exact hn (.inl h)
      · exact hopen ⟨rfl, congrArg kind h⟩
    · exact .intro hp (.type (fun h hp => hstart ⟨h, hp⟩) ha) hn rfl
termination_by 2 * s.unread.length + 1

end

end ComponentGraph.DataType
