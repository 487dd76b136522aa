import ComponentGraph.Proofs.DataType.Outcome

/-!
# Parsing decides the grammar

An expression in front of a scanner is parsed, and a token that is not admitted behind the
beginning of an expression is blamed, whatever comes after. With what an outcome tells, this gives
the types and the faults of a whole text.
-/

set_option autoImplicit false

namespace ComponentGraph.DataType

open Lexeme Reading

theorem Derives.kind_eq {ls : List Lexeme} {type : DataType} (h : Derives ls type)
    {s m : Scanner} (hs : s.Takes ls m) : s.read.1.kind = .identifier := by
  obtain ⟨w, rest, rfl⟩ := h.head
  exact congrArg kind hs.1.2

theorem not_closing {start : Bool} {t : Token} (h : t.kind = .identifier) :
    ¬ (start && t.kind == .closeAngle) = true := by
  simp [h]

section Opened

variable {depth : Nat} {s : Scanner} {good : DataType → Scanner → Prop}
  {bad : Fault → Scanner → Prop}

theorem list_meets (hword : s.read.1.lexeme = word "list")
    (ho : s.read.2.read.1.lexeme = mark '<') (hd : depth < maxDepth)
    (h : ((startingWith s.read.2.read.2.read.1 (depth + 1) s.read.2.read.2.read.2).andThen
      fun element m _ =>
      m.expecting [.closeAngle] (by decide) fun _ stop _ => .done stop (list element)).Meets
        good bad) :
    (startingWith s.read.1 depth s.read.2).Meets good bad := by
  rw [startingWith_of_word (w := .list) hword (fun _ => hd), ofWord]
  refine meets_expected ho (by decide) fun _ => ?_
  rwa [meets_taking]

theorem map_meets (hword : s.read.1.lexeme = word "map")
    (ho : s.read.2.read.1.lexeme = mark '<') (hd : depth < maxDepth)
    (h : ((startingWith s.read.2.read.2.read.1 (depth + 1) s.read.2.read.2.read.2).andThen
      fun key m _ =>
      m.expecting [.comma] (by decide) fun _ m₁ _ =>
      m₁.taking fun t m₂ _ =>
      (startingWith t (depth + 1) m₂).andThen fun value m₃ _ =>
      m₃.expecting [.closeAngle] (by decide) fun _ stop _ => .done stop (map key value)).Meets
        good bad) :
    (startingWith s.read.1 depth s.read.2).Meets good bad := by
  rw [startingWith_of_word (w := .map) hword (fun _ => hd), ofWord]
  refine meets_expected ho (by decide) fun _ => ?_
  rwa [meets_taking]

/-- The key and the comma are taken. -/
theorem map_meets_of_key {key : DataType} {m : Scanner} (hword : s.read.1.lexeme = word "map")
    (ho : s.read.2.read.1.lexeme = mark '<') (hd : depth < maxDepth)
    (hkey : Yields (startingWith s.read.2.read.2.read.1 (depth + 1) s.read.2.read.2.read.2) key m)
    (hcomma : m.read.1.lexeme = mark ',')
    (h : ((startingWith m.read.2.read.1 (depth + 1) m.read.2.read.2).andThen fun value m' _ =>
      m'.expecting [.closeAngle] (by decide) fun _ stop _ => .done stop (map key value)).Meets
        good bad) :
    (startingWith s.read.1 depth s.read.2).Meets good bad := by
  refine map_meets hword ho hd (hkey.andThen fun _ => ?_)
  refine meets_expected hcomma (by decide) fun _ => ?_
  rwa [meets_taking]

theorem record_meets (hword : s.read.1.lexeme = word "record")
    (ho : s.read.2.read.1.lexeme = mark '<') (hd : depth < maxDepth)
    (h : (fieldsAfter ∅ true (depth + 1) s.read.2.read.2).Meets
      (fun fields => good (record fields)) bad) :
    (startingWith s.read.1 depth s.read.2).Meets good bad := by
  rw [startingWith_of_word (w := .record) hword (fun _ => hd), ofWord]
  refine meets_expected ho (by decide) fun _ => ?_
  rwa [meets_map]

end Opened

section Field

variable {depth : Nat} {names : List String} {known : Fields} {start : Bool} {s m : Scanner}
  {type : DataType} {name : String} {good : Fields → Scanner → Prop} {bad : Fault → Scanner → Prop}

/-- The type and the name of one field are taken. -/
theorem field_meets (hk : ∀ n, known.contains n = true ↔ n ∈ names)
    (hkind : s.read.1.kind = .identifier)
    (htype : Yields (startingWith s.read.1 depth s.read.2) type m)
    (hword : m.read.1.lexeme = word name) (hname : name ∉ names)
    (h : (m.read.2.expecting [.comma, .closeAngle] (by decide) fun separator stop _ =>
      if separator.kind = .closeAngle then .done stop (known.insert name type)
      else fieldsAfter (known.insert name type) false depth stop).Meets good bad) :
    (fieldsAfter known start depth s).Meets good bad := by
  rw [fieldsAfter, meets_taking, if_neg (not_closing hkind)]
  refine htype.andThen fun _ => ?_
  refine meets_expected hword (List.mem_singleton.mpr rfl) fun _ => ?_
  obtain rfl : m.read.1.text = name := congrArg Lexeme.text hword
  rwa [if_neg (mt (hk _).mp hname)]

/-- One field and the comma behind it are taken, and its name is known from then on. -/
theorem field_meets_of_comma (hk : ∀ n, known.contains n = true ↔ n ∈ names)
    (hkind : s.read.1.kind = .identifier)
    (htype : Yields (startingWith s.read.1 depth s.read.2) type m)
    (hword : m.read.1.lexeme = word name) (hcomma : m.read.2.read.1.lexeme = mark ',')
    (hname : name ∉ names)
    (h : (∀ n, (known.insert name type).contains n = true ↔ n ∈ name :: names) →
      (fieldsAfter (known.insert name type) false depth m.read.2.read.2).Meets good bad) :
    (fieldsAfter known start depth s).Meets good bad := by
  refine field_meets hk hkind htype hword hname ?_
  refine meets_expected hcomma (by decide) fun _ => ?_
  have hkind' : m.read.2.read.1.kind = .comma := congrArg kind hcomma
  rw [if_neg (by rw [hkind']; decide)]
  apply h
  intro n
  rw [SortedEntries.contains_insert, hk, List.mem_cons]

end Field

-- Both recursions are on the number of lexemes: an inner expression has fewer than the outer one.
mutual

theorem Derives.yields {ls : List Lexeme} {type : DataType} (h : Derives ls type) :
    ∀ {depth : Nat} {s stop : Scanner}, depth + type.depth ≤ maxDepth → s.Takes ls stop →
      Yields (startingWith s.read.1 depth s.read.2) type stop := by
  cases h with
  | string =>
    intro depth s stop hd hs
    rw [startingWith_of_word (w := .string) hs.1.2 (fun h => by cases h), ofWord]
    exact ⟨rfl, hs.2⟩
  | int =>
    intro depth s stop hd hs
    rw [startingWith_of_word (w := .int) hs.1.2 (fun h => by cases h), ofWord]
    exact ⟨rfl, hs.2⟩
  | bool =>
    intro depth s stop hd hs
    rw [startingWith_of_word (w := .bool) hs.1.2 (fun h => by cases h), ofWord]
    exact ⟨rfl, hs.2⟩
  | list helement =>
    intro depth s stop hd hs
    rw [DataType.depth] at hd
    simp only [Scanner.takes_cons, Scanner.takes_append, Scanner.takes_nil] at hs
    obtain ⟨hw, ho, m, helements, hc, rfl⟩ := hs
    refine list_meets hw.2 ho.2 (by omega) ?_
    refine (helement.yields (by omega) helements).andThen fun _ => ?_
    exact meets_expected hc.2 (by decide) fun _ => ⟨rfl, rfl⟩
  | map hkey hvalue =>
    intro depth s stop hd hs
    rw [DataType.depth] at hd
    simp only [Scanner.takes_cons, Scanner.takes_append, Scanner.takes_nil] at hs
    obtain ⟨hw, ho, m, hkeys, hcomma, m', hvalues, hc, rfl⟩ := hs
    refine map_meets_of_key hw.2 ho.2 (by omega) (hkey.yields (by omega) hkeys) hcomma.2 ?_
    refine (hvalue.yields (by omega) hvalues).andThen fun _ => ?_
    exact meets_expected hc.2 (by decide) fun _ => ⟨rfl, rfl⟩
  | emptyRecord =>
    intro depth s stop hd hs
    rw [ofFields, DataType.depth] at hd
    simp only [Scanner.takes_cons, Scanner.takes_nil] at hs
    obtain ⟨hw, ho, hc, rfl⟩ := hs
    refine record_meets hw.2 ho.2 (by omega) ?_
    have hkind : s.read.2.read.2.read.1.kind = .closeAngle := congrArg kind hc.2
    rw [fieldsAfter, meets_taking, if_pos (by rw [hkind]; rfl)]
    exact ⟨rfl, rfl⟩
  | record hfields hnodup =>
    intro depth s stop hd hs
    rw [depth_ofFields_le_iff hnodup] at hd
    simp only [Scanner.takes_cons] at hs
    obtain ⟨hw, ho, hfs⟩ := hs
    refine record_meets hw.2 ho.2 hd.1 ?_
    exact (hfields.yields ⟨hnodup, by simp, hd.2⟩ contains_empty hfs).meets ⟨rfl, rfl⟩
termination_by ls.length

theorem DerivesFields.yields {fs : List Lexeme} {fields : List (String × DataType)}
    (h : DerivesFields fs fields) :
    ∀ {depth : Nat} {names : List String} {known : Fields} {start : Bool} {s stop : Scanner},
      FieldsFit depth names fields → (∀ n, known.contains n = true ↔ n ∈ names) →
      s.Takes (fs ++ [mark '>']) stop →
      Yields (fieldsAfter known start depth s) (known.insertAll fields) stop := by
  unfold Yields
  cases h with
  | last htype =>
    intro depth names known start s stop hfit hk hs
    obtain ⟨hname, hdepth, -⟩ := fieldsFit_cons.mp hfit
    simp only [Scanner.takes_append, Scanner.takes_cons, Scanner.takes_nil] at hs
    obtain ⟨m', ⟨m, hls, hword, rfl⟩, hc, rfl⟩ := hs
    have hyields := htype.yields hdepth hls
    refine field_meets hk (htype.kind_eq hls) hyields hword.2 hname ?_
    refine meets_expected hc.2 (by decide) fun _ => ?_
    have hkind : m.read.2.read.1.kind = .closeAngle := congrArg kind hc.2
    rw [if_pos hkind]
    exact ⟨rfl, rfl⟩
  | more htype hrest =>
    intro depth names known start s stop hfit hk hs
    obtain ⟨hname, hdepth, hfit⟩ := fieldsFit_cons.mp hfit
    rw [List.append_assoc, Scanner.takes_append] at hs
    obtain ⟨m, hls, hword, hcomma, hfs⟩ := hs
    have hyields := htype.yields hdepth hls
    refine field_meets_of_comma hk (htype.kind_eq hls) hyields hword.2 hcomma.2 hname ?_
    exact fun hk' => hrest.yields hfit hk' hfs
termination_by fs.length

end

theorem fails_expecting_mark {α : Type} {s : Scanner} (c : Char)
    (hc : TokenKind.ofMark c ≠ .error) {hk : TokenKind.endOfInput ∉ [TokenKind.ofMark c]}
    {f : Token → (s' : Scanner) → s'.unread.length < s.unread.length → Reading s' α}
    (h : ¬ (Expectation.marks [c]).Admits s.read.1.lexeme) :
    Fails (s.expecting [.ofMark c] hk f) ((Expectation.marks [c]).fault s.read.1) s.read.2 := by
  refine meets_expecting_mark c hc (fun _ => ⟨rfl, rfl⟩) fun ho => ?_
  exact absurd ⟨c, List.mem_singleton.mpr rfl, ho.1.2⟩ h

mutual

theorem Awaits.fails {depth : Nat} {p : List Lexeme} :
    ∀ {e : Expectation}, Awaits depth p e → ∀ {s m : Scanner}, s.Takes p m →
      ¬ e.Admits m.read.1.lexeme →
      Fails (startingWith s.read.1 depth s.read.2) (e.fault m.read.1) m.read.2 := by
  unfold Fails
  intro e h
  cases h with
  | type =>
    intro s m hs hn
    cases hs
    rw [startingWith_of_not_admits hn]
    exact ⟨rfl, rfl⟩
  | opening hw hd =>
    rename_i w
    intro s m hs hn
    obtain ⟨hword, rfl⟩ := hs
    rw [startingWith_of_word hword.2 fun _ => hd]
    cases w with
    | string | int | bool => cases hw
    | list | map | record =>
      rw [ofWord]
      exact fails_expecting_mark '<' (by decide) hn
  | listElement hd hp =>
    intro s m hs hn
    obtain ⟨hword, ho, hs⟩ := hs
    refine list_meets hword.2 ho.2 hd ?_
    exact (hp.fails hs hn).andThen ⟨rfl, rfl⟩
  | listClose hfit =>
    intro s m hs hn
    obtain ⟨hword, ho, hs⟩ := hs
    have hd := hfit.depth_le
    refine list_meets hword.2 ho.2 (by omega) ?_
    refine (hfit.derives.yields hd hs).andThen fun _ => ?_
    exact fails_expecting_mark '>' (by decide) hn
  | mapKey hd hp =>
    intro s m hs hn
    obtain ⟨hword, ho, hs⟩ := hs
    refine map_meets hword.2 ho.2 hd ?_
    exact (hp.fails hs hn).andThen ⟨rfl, rfl⟩
  | mapComma hfit =>
    intro s m hs hn
    obtain ⟨hword, ho, hs⟩ := hs
    have hd := hfit.depth_le
    refine map_meets hword.2 ho.2 (by omega) ?_
    refine (hfit.derives.yields hd hs).andThen fun _ => ?_
    exact fails_expecting_mark ',' (by decide) hn
  | mapValue hfit hp =>
    intro s m hs hn
    obtain ⟨hword, ho, hs⟩ := hs
    obtain ⟨m', hkey, hcomma, hs⟩ := Scanner.takes_append.mp hs
    have hd := hfit.depth_le
    have hyields := hfit.derives.yields hd hkey
    refine map_meets_of_key hword.2 ho.2 (by omega) hyields hcomma.2 ?_
    exact (hp.fails hs hn).andThen ⟨rfl, rfl⟩
  | mapClose hfit hfit' =>
    intro s m hs hn
    obtain ⟨hword, ho, hs⟩ := hs
    obtain ⟨m', hkey, hcomma, hs⟩ := Scanner.takes_append.mp hs
    have hd := hfit.depth_le
    have hyields := hfit.derives.yields hd hkey
    refine map_meets_of_key hword.2 ho.2 (by omega) hyields hcomma.2 ?_
    refine (hfit'.derives.yields hfit'.depth_le hs).andThen fun _ => ?_
    exact fails_expecting_mark '>' (by decide) hn
  | recordFields hd hp =>
    intro s m hs hn
    obtain ⟨hword, ho, hs⟩ := hs
    refine record_meets hword.2 ho.2 hd ?_
    exact hp.fails contains_empty hs hn
termination_by 2 * p.length

theorem AwaitsFields.fails {depth : Nat} {start : Bool} {names : List String} {p : List Lexeme} :
    ∀ {e : Expectation}, AwaitsFields depth start names p e →
      ∀ {known : Fields} {s m : Scanner}, (∀ n, known.contains n = true ↔ n ∈ names) →
      s.Takes p m → ¬ e.Admits m.read.1.lexeme →
      Fails (fieldsAfter known start depth s) (e.fault m.read.1) m.read.2 := by
  unfold Fails
  intro e h
  cases h with
  | start =>
    intro known s m hk hs hn
    cases hs
    have hopen : ¬ (true && s.read.1.kind == .closeAngle) = true := by
      simp only [Bool.true_and, beq_iff_eq]
      intro hkind
      exact hn (.inr ⟨rfl, Scanner.lexeme_of_kind_eq_ofMark (by decide) hkind⟩)
    rw [fieldsAfter, meets_taking, if_neg hopen, meets_andThen,
      startingWith_of_not_admits fun ha => hn (.inl (ha.resolve_right (by simp)))]
    exact ⟨rfl, rfl⟩
  | type hne hp =>
    intro known s m hk hs hn
    have hopen : ¬ (start && s.read.1.kind == .closeAngle) = true := by
      cases start with
      | false => simp
      | true =>
        obtain ⟨w, rest, rfl⟩ := hp.head (hne rfl)
        exact not_closing (congrArg kind hs.1.2)
    rw [fieldsAfter, meets_taking, if_neg hopen]
    exact (hp.fails hs hn).andThen ⟨rfl, rfl⟩
  | name hfit =>
    intro known s m hk hs hn
    rw [fieldsAfter, meets_taking, if_neg (not_closing (hfit.derives.kind_eq hs))]
    refine (hfit.derives.yields hfit.depth_le hs).andThen fun _ => ?_
    refine meets_expecting_word ?_ fun hword _ => ?_
    · intro hkind
      simp [Expectation.fault, Expectation.complaint, hkind, Token.unexpected]
    · have hkind : m.read.1.kind = .identifier := congrArg kind hword.1.2
      have hdup : known.contains m.read.1.text = true := by
        rw [hk]
        exact Decidable.byContradiction fun hnew => hn ⟨_, hnew, hword.1.2⟩
      rw [if_pos hdup]
      simp [Expectation.fault, Expectation.complaint, hkind]
  | separator hfit hname =>
    intro known s m hk hs hn
    obtain ⟨m', hls, hword, rfl⟩ := Scanner.takes_append.mp hs
    have hyields := hfit.derives.yields hfit.depth_le hls
    refine field_meets hk (hfit.derives.kind_eq hls) hyields hword.2 hname ?_
    refine meets_expecting (fun _ => ⟨rfl, rfl⟩) fun hsep => ?_
    simp only [List.mem_cons, List.not_mem_nil, or_false] at hsep
    rcases hsep with hsep | hsep
    · exact absurd ⟨',', by decide, Scanner.lexeme_of_kind_eq_ofMark (by decide) hsep⟩ hn
    · exact absurd ⟨'>', by decide, Scanner.lexeme_of_kind_eq_ofMark (by decide) hsep⟩ hn
  | more hfit hname hp =>
    intro known s m hk hs hn
    obtain ⟨m', hls, hword, hcomma, hp'⟩ := Scanner.takes_append.mp hs
    have hyields := hfit.derives.yields hfit.depth_le hls
    refine field_meets_of_comma hk (hfit.derives.kind_eq hls) hyields hword.2 hcomma.2 hname ?_
    exact fun hk' => hp.fails hk' hp' hn
termination_by 2 * p.length + 1

end

section Text

variable {text : String} {m : Scanner}

theorem parse_of_yields {type : DataType}
    (h : Yields (read (.ofString text)) type m) :
    parse text =
      if m.read.1.kind = .endOfInput then .ok type else .error m.read.1.unexpected := by
  obtain ⟨hresult, rfl⟩ := h.result
  simp only [parse, hresult, Except.bind, Scanner.expect, List.mem_singleton]
  split <;> rfl

theorem parse_of_fails {f : Fault} (h : Fails (read (.ofString text)) f m) :
    parse text = .error f := by
  simp only [parse, h.result.1, Except.bind]

theorem read_meets (s : Scanner) :
    (read s).Meets (fun type stop => ∃ ls, s.Takes ls stop ∧ Fits 0 ls type)
      (Blames s (Awaits 0)) := startingWith_meets 0 (Nat.zero_le _) s

theorem parse_eq_ok_iff_scan {type : DataType} :
    parse text = .ok type ↔ Derives (scan text.toList) type ∧ type.depth ≤ maxDepth := by
  constructor
  · intro h
    rcases (read_meets (.ofString text)).yields_or_fails with
      ⟨type', hyields, ls, hls, hfit⟩ | ⟨f, hfails, -⟩
    · rw [parse_of_yields hyields] at h
      split at h
      · rename_i hend
        cases h
        have hscan := hls.scan_eq
        rw [(Scanner.read_of_endOfInput hend).2.1, List.append_nil] at hscan
        exact ⟨hscan ▸ hfit.derives, by simpa using hfit.depth_le⟩
      · cases h
    · cases (parse_of_fails hfails).symm.trans h
  · rintro ⟨hderives, hdepth⟩
    have hfit : Fits 0 _ type := ⟨hderives, by simpa using hdepth⟩
    obtain ⟨stop, hstop, hrest⟩ :=
      Scanner.exists_takes (s := .ofString text) (List.append_nil _).symm
    rw [parse_of_yields (hfit.derives.yields hfit.depth_le hstop),
      if_pos (Scanner.kind_eq_endOfInput_iff.mpr (Scanner.read_of_scan_nil hrest))]

theorem parse_eq_error_iff {f : Fault} :
    parse text = .error f ↔ ∃ p m e, (Scanner.ofString text).Takes p m ∧ Expects p e ∧
      ¬ e.Admits m.read.1.lexeme ∧ f = e.fault m.read.1 := by
  constructor
  · intro h
    rcases (read_meets (.ofString text)).yields_or_fails with
      ⟨type, hyields, ls, hls, hfit⟩ | ⟨f', hfails, p, m, e, hp, ha, hn, rfl, -⟩
    · rw [parse_of_yields hyields] at h
      split at h
      · cases h
      · rename_i hend
        cases h
        exact ⟨ls, _, .ending, hls, .behind hfit,
          fun he => hend (Scanner.kind_eq_endOfInput_iff.mpr he), rfl⟩
    · cases (parse_of_fails hfails).symm.trans h
      exact ⟨p, m, e, hp, .inside ha, hn, rfl⟩
  · rintro ⟨p, m, e, hp, he, hn, rfl⟩
    cases he with
    | inside ha => exact parse_of_fails (ha.fails hp hn)
    | behind hfit =>
      rw [parse_of_yields (hfit.derives.yields hfit.depth_le hp), if_neg]
      · rfl
      · exact fun hend => hn (Scanner.kind_eq_endOfInput_iff.mp hend)

end Text

/-- A text parses exactly to the types that its tokens derive within the limit of nesting. -/
theorem parse_eq_ok_iff_derives (text : String) (type : DataType) :
    parse text = .ok type ↔
      Derives ((Scanner.ofString text).tokens.1.map Token.lexeme) type ∧ type.depth ≤ 128 := by
  rw [parse_eq_ok_iff_scan, Scanner.tokens_lexeme]
  rfl

end ComponentGraph.DataType
