import ComponentGraph.Proofs.Peg
import ComponentGraph.Proofs.Pin

/-!
# The grammar of pin specs

The envelope of a spec as a parsing expression. Its rule for the payload looks ahead for the
parenthesis at the very end, and a repetition gives nothing back; still it succeeds just on the
texts `keyword(payload)` and cuts them at the first opening and at the last closing parenthesis.
-/

set_option autoImplicit false

namespace ComponentGraph.Pin

namespace Grammar

open Peg

inductive Rule
  | spec
  | keyword
  | payload

def keyword : Peg Rule :=
  .rule .keyword (.seq (.anyBut (.char '(')) (.many (.anyBut (.char '('))))

def close : Peg Rule := .seq (.char ')') .ending

def payload : Peg Rule := .rule .payload (.many (.anyBut close))

def spec : Peg Rule :=
  .rule .spec (.seq .start (.seq keyword (.seq (.char '(') (.seq payload close))))

variable {before text rest : List Char}

theorem run_anyBut_open (h : rest.head?.getD '(' = '(') :
    Run (.anyBut (.char '(') : Peg Rule) before rest none := by
  cases rest with
  | nil => exact .anyBut_fail_nil (.char_fail _ nofun)
  | cons c rest =>
    obtain rfl : c = '(' := h
    exact .anyBut_fail (.char_ok ..)

theorem run_keyword (hne : text ≠ []) (hfree : '(' ∉ text) (hrest : rest.head?.getD '(' = '(') :
    Run keyword before (text ++ rest) (some ⟨text, rest, [(.keyword, text)]⟩) := by
  have hquiet : ∀ before' a c b, text = a ++ c :: b →
      Run (.char '(' : Peg Rule) before' (c :: (b ++ rest)) none := by
    rintro before' a c b rfl
    refine .char_fail _ fun hc => hfree ?_
    rw [← Option.some.inj hc]
    exact List.mem_append_right _ List.mem_cons_self
  obtain ⟨c, text, rfl⟩ := List.exists_cons_of_ne_nil hne
  refine .rule_ok _ (.seq_ok (.anyBut_ok (hquiet _ [] c text rfl)) (.many_anyBut ?_ ?_))
  · exact fun a d b htext => hquiet _ (c :: a) d b (congrArg (c :: ·) htext)
  · exact run_anyBut_open hrest

theorem run_close (before : List Char) : Run close before [')'] (some ⟨[')'], [], []⟩) :=
  .seq_ok (.char_ok ..) (.ending_ok _)

theorem run_close_fail (before : List Char) : Run close before [] none :=
  .seq_fail_first _ (.char_fail _ nofun)

theorem run_payload (h : rest = [')'] ∨ rest = [] ∧ text.getLast? ≠ some ')') :
    Run payload before (text ++ rest) (some ⟨text, rest, [(.payload, text)]⟩) := by
  refine .rule_ok _ (.many_anyBut ?_ ?_)
  · rintro a c b rfl
    by_cases hc : c = ')'
    · subst hc
      refine .seq_fail_second (.char_ok ..) ?_
      -- Something follows, as the text does not end here.
      rcases h with rfl | ⟨rfl, hlast⟩
      · cases b <;> exact .ending_fail ..
      · cases b with
        | nil => exact absurd (by simp) hlast
        | cons d b => exact .ending_fail ..
    · exact .seq_fail_first _ (.char_fail _ fun hhead => hc (Option.some.inj hhead))
  · rcases h with rfl | ⟨rfl, -⟩
    · exact .anyBut_fail (run_close _)
    · exact .anyBut_fail_nil (run_close_fail _)

theorem run_keyword_fail (h : text.head?.getD '(' = '(') : Run keyword before text none :=
  .rule_fail _ (.seq_fail_first _ (run_anyBut_open h))

theorem run_spec_ok {k p : List Char} (hne : k ≠ []) (hfree : '(' ∉ k) :
    Run spec [] (k ++ '(' :: (p ++ [')']))
      (some ⟨k ++ '(' :: (p ++ [')']), [],
        [(.spec, k ++ '(' :: (p ++ [')'])), (.keyword, k), (.payload, p)]⟩) := by
  have hpayload (before : List Char) : Run (.seq payload close) before (p ++ [')'])
      (some ⟨p ++ [')'], [], [(.payload, p)]⟩) :=
    .seq_ok (run_payload (.inl rfl)) (run_close _)
  have hopen (before : List Char) : Run (.seq (.char '(') (.seq payload close)) before
      ('(' :: (p ++ [')'])) (some ⟨'(' :: (p ++ [')']), [], [(.payload, p)]⟩) :=
    .seq_ok (.char_ok ..) (hpayload _)
  exact .rule_ok _ (.seq_ok (.start_ok _) (.seq_ok (run_keyword hne hfree rfl) (hopen _)))

theorem run_spec_fail {text : List Char} (h : envelope? text = none) : Run spec [] text none := by
  refine .rule_fail _ (.seq_fail_second (.start_ok _) ?_)
  by_cases hmem : '(' ∈ text
  · obtain ⟨k, after, rfl, hfree⟩ := List.eq_append_cons_of_mem hmem
    by_cases hne : k = []
    · subst hne
      exact .seq_fail_first _ (run_keyword_fail rfl)
    · -- The payload takes all that follows, and no parenthesis is left.
      have hlast : after.getLast? ≠ some ')' := by
        intro hlast
        have hsome := envelope?_eq_some_iff.mpr
          ⟨congrArg (k ++ '(' :: ·) (List.dropLast_append_getLast? _ hlast).symm, hne, hfree⟩
        cases h.symm.trans hsome
      have hpayload (before : List Char) :
          Run payload before (after ++ []) (some ⟨after, [], [(.payload, after)]⟩) :=
        run_payload (.inr ⟨rfl, hlast⟩)
      rw [List.append_nil] at hpayload
      exact .seq_fail_second (run_keyword hne hfree rfl) (.seq_fail_second (.char_ok ..)
        (.seq_fail_second (hpayload _) (run_close_fail _)))
  · by_cases hne : text = []
    · subst hne
      exact .seq_fail_first _ (run_keyword_fail rfl)
    · have hkeyword (before : List Char) :
          Run keyword before (text ++ []) (some ⟨text, [], [(.keyword, text)]⟩) :=
        run_keyword hne hmem rfl
      rw [List.append_nil] at hkeyword
      exact .seq_fail_second (hkeyword _) (.seq_fail_first _ (.char_fail _ nofun))

end Grammar

/-- The text is `keyword(payload)`, and its first opening parenthesis is the one shown. -/
structure Splits (text keyword payload : String) : Prop where
  text_eq : text = keyword ++ "(" ++ payload ++ ")"
  keyword_ne : keyword ≠ ""
  keyword_free : '(' ∉ keyword.toList

theorem splits_iff {text keyword payload : String} :
    Splits text keyword payload ↔
      envelope? text.toList = some (keyword.toList, payload.toList) := by
  rw [envelope?_eq_some_iff]
  constructor
  · rintro ⟨rfl, hne, hfree⟩
    exact ⟨by simp, by simpa using hne, hfree⟩
  · rintro ⟨htext, hne, hfree⟩
    exact ⟨String.toList_injective (by simpa using htext), by simpa using hne, hfree⟩

/-- The error for a text of any other form. -/
def Refused (text : String) (result : Except Fault Pin) : Prop :=
  ∃ e, result = .error e ∧ e.position = some ⟨1, 1⟩ ∧
    e.message =
      if text.toList.head?.getD '(' = '(' then
        s!"Malformed pin spec `{text}`: expected a pin keyword"
      else s!"Malformed pin spec `{text}`: expected `<keyword>(<payload>)`"

/-- What is made of `keyword(payload)`. -/
structure Decided (keyword payload : String) (result : Except Fault Pin) : Prop where
  signal : ∀ direction, keyword = signalWord direction → ∀ pin, result = .ok pin ↔
    ∃ type, DataType.parse payload = .ok type ∧ pin = ⟨direction, .signal type⟩
  signal_error : ∀ direction, keyword = signalWord direction → ∀ e,
    DataType.parse payload = .error e → ∃ e', result = .error e' ∧ e'.message = e.message
  command : ∀ direction, keyword = commandWord direction →
    result = .ok ⟨direction, .command ∅ ∅ ∅⟩
  unknown : (∀ direction, keyword ≠ signalWord direction ∧ keyword ≠ commandWord direction) →
    ∃ e, result = .error e ∧ e.position = some ⟨1, 1⟩ ∧
      e.message = s!"Unknown pin type: {keyword}"

theorem refused_of_envelope? {text : String} (h : envelope? text.toList = none) :
    Refused text (ofSpec text) := by
  refine ⟨⟨malformed text, some .start⟩, by rw [ofSpec, h], rfl, ?_⟩
  rw [Fault.message, malformed]
  cases htext : text.toList with
  | nil => rfl
  | cons c rest =>
    by_cases hc : c = '('
    · subst hc
      rfl
    · rw [List.head?_cons, Option.getD_some, if_neg hc]
      split
      · rename_i hnil
        cases hnil
      · rename_i hcons
        cases hcons
        exact absurd rfl hc
      · rfl

theorem Splits.decided {text keyword payload : String} (h : Splits text keyword payload) :
    Decided keyword payload (ofSpec text) where
  signal direction hword pin := by
    obtain ⟨rfl, -, -⟩ := h
    subst hword
    cases hparse : DataType.parse payload with
    | ok type =>
      rw [ofSpec_signal direction hparse]
      simp [eq_comm]
    | error e =>
      rw [ofSpec_signal_error direction hparse]
      simp
  signal_error direction hword e he := by
    obtain ⟨rfl, -, -⟩ := h
    subst hword
    exact ⟨_, ofSpec_signal_error direction he, rfl⟩
  command direction hword := by
    obtain ⟨rfl, -, -⟩ := h
    subst hword
    exact ofSpec_commandWord direction payload
  unknown hword := by
    refine ⟨⟨.unknownPinType keyword, some .start⟩, ?_, rfl, rfl⟩
    obtain ⟨hpublish, hsend⟩ : keyword ≠ "publish-signal" ∧ keyword ≠ "send-command" :=
      hword .sends
    obtain ⟨hconsume, hreceive⟩ : keyword ≠ "consume-signal" ∧ keyword ≠ "receive-command" :=
      hword .receives
    rw [ofSpec, splits_iff.mp h]
    simp only [String.ofList_toList]
    rw [if_neg hpublish, if_neg hconsume, if_neg hsend, if_neg hreceive]

/-- Every text is refused, or it splits in one way only and is decided by its parts; the grammar
sees the same parts. -/
theorem ofSpec_decides (text : String) :
    ((∀ k p, ¬ Splits text k p) ∧
      (∀ o, Peg.Run Grammar.spec [] text.toList o ↔ o = none) ∧ Refused text (ofSpec text)) ∨
    ∃ keyword payload,
      (∀ k p, Splits text k p ↔ k = keyword ∧ p = payload) ∧
      (∀ o, Peg.Run Grammar.spec [] text.toList o ↔
        o = some ⟨text.toList, [], [(.spec, text.toList), (.keyword, keyword.toList),
          (.payload, payload.toList)]⟩) ∧
      Decided keyword payload (ofSpec text) := by
  cases henvelope : envelope? text.toList with
  | none =>
    refine .inl ⟨fun k p h => ?_, fun o => (Grammar.run_spec_fail henvelope).iff_eq,
      refused_of_envelope? henvelope⟩
    cases henvelope.symm.trans (splits_iff.mp h)
  | some parts =>
    obtain ⟨k, p⟩ := parts
    have hsplits : Splits text (.ofList k) (.ofList p) := by
      rw [splits_iff, henvelope, String.toList_ofList, String.toList_ofList]
    refine .inr ⟨.ofList k, .ofList p, fun k' p' => ⟨fun h => ?_, ?_⟩, fun o => Peg.Run.iff_eq ?_,
      hsplits.decided⟩
    · obtain ⟨rfl, rfl⟩ := Prod.mk.inj (Option.some.inj (henvelope.symm.trans (splits_iff.mp h)))
      exact ⟨String.ofList_toList.symm, String.ofList_toList.symm⟩
    · rintro ⟨rfl, rfl⟩
      exact hsplits
    · obtain ⟨htext, hne, hfree⟩ := envelope?_eq_some_iff.mp henvelope
      rw [String.toList_ofList, String.toList_ofList, htext]
      exact Grammar.run_spec_ok hne hfree

end ComponentGraph.Pin
