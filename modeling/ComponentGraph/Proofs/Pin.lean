import ComponentGraph.Pin.Spec
import ComponentGraph.Proofs.DataType.Rendering
import ComponentGraph.Proofs.Separated

/-!
# The specs of pins

Only signals and commands without fields have a spec. A pin that is read from a spec is one of
them, and a pin that is one of them is read back from a spec of its own.
-/

set_option autoImplicit false

namespace ComponentGraph

namespace DataType

theorem parse_of_renders {type : DataType} {text : String} (h : Renders type text)
    (hnames : type.NamesAreIdentifiers) (hdepth : type.depth ≤ maxDepth) :
    parse text = .ok type :=
  parse_eq_ok_iff_scan.mpr ⟨h.derives hnames, hdepth⟩

theorem namesAreIdentifiers_of_parse {type : DataType} {text : String}
    (h : parse text = .ok type) : type.NamesAreIdentifiers ∧ type.depth ≤ maxDepth := by
  obtain ⟨hderives, hdepth⟩ := parse_eq_ok_iff_scan.mp h
  exact ⟨hderives.namesAreIdentifiers fun l hl => Lexeme.proper_of_mem_scan hl, hdepth⟩

end DataType

namespace Pin

open Separated

theorem envelope?_eq_some_iff {text keyword payload : List Char} :
    envelope? text = some (keyword, payload) ↔
      text = keyword ++ '(' :: (payload ++ [')']) ∧ keyword ≠ [] ∧ '(' ∉ keyword := by
  unfold envelope?
  constructor
  · intro h
    split at h
    · cases h
    · rename_i before after hcut
      obtain ⟨htext, hsep⟩ := eq_of_cut? hcut
      split at h
      · rename_i hshape
        cases h
        have hlast := List.dropLast_append_getLast? _ hshape.2
        exact ⟨by rw [htext, hlast], hshape.1, hsep⟩
      · cases h
  · rintro ⟨rfl, hne, hsep⟩
    simp [cut?_append _ hsep, hne]

/-- A signal whose type every text of it gives back, or a command without fields. -/
def Readable (p : Pin) : Prop :=
  (∃ type, p.kind = .signal type ∧
    ∀ text, DataType.Renders type text → DataType.parse text = .ok type) ∨
  p.kind = .command ∅ ∅ ∅

theorem readable_of_signal {direction : Direction} {origin : Position} {payload : String} {p : Pin}
    (h : signal direction origin payload = .ok p) : p.Readable := by
  unfold signal at h
  split at h
  · rename_i type hparse
    cases h
    obtain ⟨hnames, hdepth⟩ := DataType.namesAreIdentifiers_of_parse hparse
    exact .inl ⟨type, rfl, fun text htext => DataType.parse_of_renders htext hnames hdepth⟩
  · cases h

theorem readable_of_ofSpec {text : String} {p : Pin} (h : ofSpec text = .ok p) : p.Readable := by
  unfold ofSpec at h
  split at h
  · cases h
  · dsimp only at h
    split_ifs at h with hpublish hconsume hsend hreceive
    · exact readable_of_signal h
    · exact readable_of_signal h
    · cases h
      exact .inr rfl
    · cases h
      exact .inr rfl

/-- A signal of a type that has a text within the limit of nesting, or a command without fields. -/
def Expressible (p : Pin) : Prop :=
  (∃ type, p.kind = .signal type ∧ type.NamesAreIdentifiers ∧ type.depth ≤ 128) ∨
  p.kind = .command ∅ ∅ ∅

def signalWord : Direction → String
  | .sends => "publish-signal"
  | .receives => "consume-signal"

def commandWord : Direction → String
  | .sends => "send-command"
  | .receives => "receive-command"

def spec (p : Pin) : String :=
  match p.kind.dataType? with
  | some type => signalWord p.direction ++ "(" ++ type.render ++ ")"
  | none => commandWord p.direction ++ "()"

theorem envelope?_spec {keyword : String} (payload : String) (hne : keyword ≠ "")
    (hsep : '(' ∉ keyword.toList) :
    envelope? (keyword ++ "(" ++ payload ++ ")").toList =
      some (keyword.toList, payload.toList) := by
  rw [envelope?_eq_some_iff]
  exact ⟨by simp, by simpa using hne, hsep⟩

theorem ofSpec_signalWord (direction : Direction) (payload : String) :
    ofSpec (signalWord direction ++ "(" ++ payload ++ ")") =
      signal direction (Position.start.advance ((signalWord direction).toList ++ ['(']))
        payload := by
  have hne : signalWord direction ≠ "" := by cases direction <;> decide
  have hsep : '(' ∉ (signalWord direction).toList := by cases direction <;> decide
  rw [ofSpec, envelope?_spec payload hne hsep]
  simp only [String.ofList_toList]
  cases direction with
  | sends => rw [if_pos (by decide)]
  | receives => rw [if_neg (by decide), if_pos (by decide)]

theorem ofSpec_signal (direction : Direction) {type : DataType} {payload : String}
    (h : DataType.parse payload = .ok type) :
    ofSpec (signalWord direction ++ "(" ++ payload ++ ")") = .ok ⟨direction, .signal type⟩ := by
  rw [ofSpec_signalWord, signal, h]

theorem ofSpec_signal_error (direction : Direction) {e : Fault} {payload : String}
    (h : DataType.parse payload = .error e) :
    ofSpec (signalWord direction ++ "(" ++ payload ++ ")") =
      .error (e.within (Position.start.advance ((signalWord direction).toList ++ ['(']))) := by
  rw [ofSpec_signalWord, signal, h]

theorem ofSpec_commandWord (direction : Direction) (payload : String) :
    ofSpec (commandWord direction ++ "(" ++ payload ++ ")") = .ok ⟨direction, .command ∅ ∅ ∅⟩ := by
  have hne : commandWord direction ≠ "" := by cases direction <;> decide
  have hsep : '(' ∉ (commandWord direction).toList := by cases direction <;> decide
  rw [ofSpec, envelope?_spec payload hne hsep]
  simp only [String.ofList_toList]
  cases direction with
  | sends => rw [if_neg (by decide), if_neg (by decide), if_pos (by decide)]; rfl
  | receives =>
    rw [if_neg (by decide), if_neg (by decide), if_neg (by decide), if_pos (by decide)]
    rfl

theorem ofSpec_command (direction : Direction) :
    ofSpec (commandWord direction ++ "()") = .ok ⟨direction, .command ∅ ∅ ∅⟩ := by
  cases direction <;> rfl

theorem Expressible.ofSpec_spec {p : Pin} (h : p.Expressible) : ofSpec p.spec = .ok p := by
  obtain ⟨direction, kind⟩ := p
  rcases h with ⟨type, hkind, hnames, hdepth⟩ | hkind
  · dsimp only at hkind
    subst hkind
    exact ofSpec_signal direction
      (DataType.parse_of_renders (DataType.renders_render type) hnames hdepth)
  · dsimp only at hkind
    subst hkind
    exact ofSpec_command direction

end Pin

end ComponentGraph
