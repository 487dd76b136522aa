import ComponentGraph.Document.Kind
import ComponentGraph.Document.Number

/-!
# Documents

A manifest is decoded from a tree of null, scalars, sequences and mappings. `Document` says what
has to be known of a type of trees: the shape of a node, as far as decoding looks at it, and its
copy as a configuration value. Of a mapping the shape keeps the entries whose keys are strings.
-/

set_option autoImplicit false

namespace ComponentGraph

/-- A node of a document, as decoding sees it. -/
inductive Shape (δ : Type)
  | null
  | bool
  | number
  | string (text : String)
  | sequence (items : List δ)
  | mapping (entries : List (String × δ))

/-- Trees that manifests are decoded from. Nodes get smaller on the way down. -/
class Document (δ : Type) where
  shape : δ → Shape δ
  copy : δ → ConfigValue
  size : δ → Nat
  size_item : ∀ {d : δ} {items : List δ}, shape d = .sequence items →
    ∀ x ∈ items, size x < size d
  size_entry : ∀ {d : δ} {entries : List (String × δ)}, shape d = .mapping entries →
    ∀ e ∈ entries, size e.2 < size d

namespace Document

variable {δ : Type} [Document δ]

def kind (d : δ) : Kind :=
  match shape d with
  | .null => .null
  | .bool => .bool
  | .number => .number
  | .string _ => .string
  | .sequence _ => .sequence
  | .mapping _ => .mapping

def isNull (d : δ) : Bool := kind d == .null

def isMapping (d : δ) : Bool := kind d == .mapping

def string? (d : δ) : Option String :=
  match shape d with
  | .string text => some text
  | _ => none

def items? (d : δ) : Option (List δ) :=
  match shape d with
  | .sequence items => some items
  | _ => none

/-- The entries of a mapping whose keys are strings, in order. -/
def entries? (d : δ) : Option (List (String × δ)) :=
  match shape d with
  | .mapping entries => some entries
  | _ => none

/-- The value of the first entry with this key. -/
def get? (d : δ) (key : String) : Option δ :=
  (entries? d).bind fun entries => (entries.find? fun e => e.1 == key).map Prod.snd

/-- The value of the first entry with this key. A null counts as absent. -/
def present? (d : δ) (key : String) : Option δ := (get? d key).filter fun v => !isNull v

theorem shape_of_items? {d : δ} {items : List δ} (h : items? d = some items) :
    shape d = .sequence items := by
  unfold items? at h
  split at h
  · rename_i hd
    rw [hd, Option.some.inj h]
  · cases h

theorem shape_of_entries? {d : δ} {entries : List (String × δ)} (h : entries? d = some entries) :
    shape d = .mapping entries := by
  unfold entries? at h
  split at h
  · rename_i hd
    rw [hd, Option.some.inj h]
  · cases h

theorem size_of_items? {d : δ} {items : List δ} (h : items? d = some items) :
    ∀ x ∈ items, size x < size d := size_item (shape_of_items? h)

theorem size_of_entries? {d : δ} {entries : List (String × δ)} (h : entries? d = some entries) :
    ∀ e ∈ entries, size e.2 < size d := size_entry (shape_of_entries? h)

theorem size_of_get? {d v : δ} {key : String} (h : get? d key = some v) : size v < size d := by
  obtain ⟨entries, hentries, hfind⟩ := Option.bind_eq_some_iff.mp h
  obtain ⟨e, he, rfl⟩ := Option.map_eq_some_iff.mp hfind
  exact size_of_entries? hentries e (List.mem_of_find?_eq_some he)

theorem size_of_present? {d v : δ} {key : String} (h : present? d key = some v) :
    size v < size d := size_of_get? (Option.filter_eq_some_iff.mp h).1

/-- A short text of a node for messages: a string as it is, the items of a sequence in brackets,
and for other nodes the kind. -/
def describe (d : δ) : String :=
  match string? d with
  | some text => text
  | none =>
    match _h : items? d with
    | some items =>
      "[" ++ String.intercalate ", " (items.attach.map fun x => describe x.1) ++ "]"
    | none => "<" ++ (kind d).word ++ ">"
termination_by size d
decreasing_by exact size_of_items? _h _ x.2

end Document

end ComponentGraph
