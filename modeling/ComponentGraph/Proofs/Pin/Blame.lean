import ComponentGraph.Proofs.Pin
import ComponentGraph.Proofs.Token.Enclosed

/-!
# Errors in the payload of a signal

The payload is parsed as a text of its own, and its errors are moved into the spec. There they
stand at the same token, which is two places later among the tokens of the spec, and at the closing
parenthesis when the payload ends too early.
-/

set_option autoImplicit false

namespace ComponentGraph

theorem Scanner.eq_of_position_eq {text : String} {i j : Nat} {t u : Token}
    (ht : (ofString text).stream[i]? = some t) (hu : (ofString text).stream[j]? = some u)
    (h : t.position = u.position) : i = j := by
  have hmap {k : Nat} {v : Token} (hv : (ofString text).stream[k]? = some v) :
      ((ofString text).stream.map Token.position)[k]? = some v.position := by
    rw [List.getElem?_map, hv, Option.map_some]
  have hlt := (List.getElem?_eq_some_iff.mp (hmap ht)).1
  exact (List.getElem?_inj hlt (nodup_positions text)).mp (by rw [hmap ht, hmap hu, h])

theorem Scanner.eq_ending_of_mem {text : String} {t : Token} (h : t ∈ (ofString text).stream)
    (hkind : t.kind = .endOfInput) : t = Token.ending text.toList := by
  rw [stream_ofString] at h
  rcases List.mem_append.mp h with h | h
  · exact absurd hkind (Token.kind_ne_of_mem_scanFrom h)
  · exact List.mem_singleton.mp h

/-- A fault of parsing stands at one of the tokens, the end of the input counted. -/
theorem DataType.exists_token_of_error {text : String} {e : Fault} (h : parse text = .error e) :
    ∃ (i : Nat) (t : Token),
      (Scanner.ofString text).stream[i]? = some t ∧ e.position = some t.position := by
  obtain ⟨p, m, expected, hp, -, -, rfl⟩ := parse_eq_error_iff.mp h
  exact ⟨p.length, m.read.1, hp.stream_getElem?, rfl⟩

namespace Pin

theorem isIdentifier_signalWord (direction : Direction) : IsIdentifier (signalWord direction) := by
  cases direction <;> exact ⟨_, _, rfl, by decide, List.all_eq_true.mp (by decide)⟩

/-- The fault of the payload stands at the token `t` with the number `i` and at no other, and the
spec fails alike at its own token `t'` two places later. -/
structure PointsInto (word payload : String) (e : Fault) (i : Nat) (t t' : Token) : Prop where
  token : (Scanner.ofString payload).stream[i]? = some t
  position : ∀ j u, (Scanner.ofString payload).stream[j]? = some u →
    (e.position = some u.position ↔ j = i)
  token_spec : (Scanner.ofString (word ++ "(" ++ payload ++ ")")).stream[i + 2]? = some t'
  same : if t.kind = .endOfInput then
      t' = ⟨.closeParen, ")", .behind (word ++ "(" ++ payload).toList⟩
    else t'.lexeme = t.lexeme
  result : ∃ e', ofSpec (word ++ "(" ++ payload ++ ")") = .error e' ∧
    e'.message = e.message ∧ e'.position = some t'.position

theorem ofSpec_error_pointsInto (direction : Direction) {payload : String} {e : Fault}
    (h : DataType.parse payload = .error e) :
    ∃ i t t', PointsInto (signalWord direction) payload e i t t' := by
  obtain ⟨i, t, ht, hposition⟩ := DataType.exists_token_of_error h
  have hlt := (List.getElem?_eq_some_iff.mp ht).1
  refine ⟨i, t, t.enclosed (.behind ((signalWord direction).toList ++ ['('])), ht,
    fun j u hu => ?_, ?_, ?_, _, ofSpec_signal_error direction h, rfl, ?_⟩
  · rw [hposition, Option.some.injEq]
    constructor
    · exact fun heq => Scanner.eq_of_position_eq hu ht heq.symm
    · rintro rfl
      rw [Option.some.inj (ht.symm.trans hu)]
  · rw [Scanner.stream_enclosed (isIdentifier_signalWord direction), List.getElem?_cons_succ,
      List.getElem?_cons_succ, List.getElem?_append_left (by rwa [List.length_map]),
      List.getElem?_map, ht, Option.map_some]
  · rw [Token.enclosed]
    split
    · rename_i hkind
      have hending := Scanner.eq_ending_of_mem (List.mem_of_getElem? ht) hkind
      have htext : (signalWord direction ++ "(" ++ payload).toList =
          ((signalWord direction).toList ++ ['(']) ++ payload.toList := by simp
      have hbehind := Position.behind_append ((signalWord direction).toList ++ ['(']) payload.toList
      rw [hending, htext, hbehind]
      rfl
    · rfl
  · rw [Fault.within, hposition, Position.start_advance, Token.position_enclosed]
    rfl

/-- A payload that ends too early on its second line. -/
theorem ofSpec_error_pointsInto_unclosed :
    DataType.parse "map<string,\n  list<int>" =
      .error ⟨.unexpectedToken "end of input", some ⟨2, 12⟩⟩ ∧
    ∃ i t t', PointsInto "consume-signal" "map<string,\n  list<int>"
      ⟨.unexpectedToken "end of input", some ⟨2, 12⟩⟩ i t t' := by
  have h : DataType.parse "map<string,\n  list<int>" =
      .error ⟨.unexpectedToken "end of input", some ⟨2, 12⟩⟩ := by
    decide +kernel
  exact ⟨h, ofSpec_error_pointsInto .receives h⟩

end Pin

end ComponentGraph
