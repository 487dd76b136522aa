import ComponentGraph.Proofs.DataType.Parsing

/-!
# Parsing what was rendered

The fields of a record may be written in any order; `Renders` is the relation between a type and
all of its texts, and `render` gives one of them. A text of a type parses back to the type just
when the names of its fields are identifiers and it stays within the limit of nesting. What the
text of any other type parses to is not said here.
-/

set_option autoImplicit false

namespace ComponentGraph.DataType

open Lexeme

mutual

/-- The text of a type, with the fields of each record in an order of its own. -/
inductive Renders : DataType → String → Prop
  | string : Renders string "string"
  | int : Renders int "int"
  | bool : Renders bool "bool"
  | list {element : DataType} {text : String} :
    Renders element text → Renders (list element) ("list<" ++ text ++ ">")
  | map {key value : DataType} {text text' : String} :
    Renders key text → Renders value text' →
    Renders (map key value) ("map<" ++ text ++ ", " ++ text' ++ ">")
  | record {fields : Fields} {order : List (String × DataType)} {parts : List String} :
    order.Perm fields.toList → RendersFields order parts →
    Renders (record fields) ("record<" ++ String.intercalate ", " parts ++ ">")

inductive RendersFields : List (String × DataType) → List String → Prop
  | nil : RendersFields [] []
  | cons {name text : String} {type : DataType} {order : List (String × DataType)}
      {parts : List String} :
    Renders type text → RendersFields order parts →
    RendersFields ((name, type) :: order) ((text ++ " " ++ name) :: parts)

end

mutual

theorem renders_render : ∀ type : DataType, Renders type type.render
  | .string => .string
  | .int => .int
  | .bool => .bool
  | .list element => .list (renders_render element)
  | .map key value => .map (renders_render key) (renders_render value)
  | .record fields => .record (.refl _) (rendersFields_toList fields)

theorem rendersFields_toList {low : Option String} :
    ∀ fields : SortedEntries DataType low,
      RendersFields fields.toList (render.renderFields fields)
  | .nil => .nil
  | .cons _ _ type rest => .cons (renders_render type) (rendersFields_toList rest)

end

/-- The names of all fields of all records inside of the type are identifiers. -/
def NamesAreIdentifiers : DataType → Prop
  | string | int | bool => True
  | list element => element.NamesAreIdentifiers
  | map key value => key.NamesAreIdentifiers ∧ value.NamesAreIdentifiers
  | record fields => inFields fields
where
  inFields {low : Option String} : SortedEntries DataType low → Prop
    | .nil => True
    | .cons name _ type rest => IsIdentifier name ∧ type.NamesAreIdentifiers ∧ inFields rest

theorem inFields_iff {low : Option String} {fields : SortedEntries DataType low} :
    NamesAreIdentifiers.inFields fields ↔
      ∀ f ∈ fields.toList, IsIdentifier f.1 ∧ f.2.NamesAreIdentifiers := by
  induction fields with
  | nil => simp [NamesAreIdentifiers.inFields, SortedEntries.toList]
  | cons name above type rest ih =>
    rw [NamesAreIdentifiers.inFields, SortedEntries.toList, List.forall_mem_cons, ih, and_assoc]

mutual

theorem Derives.namesAreIdentifiers {ls : List Lexeme} {type : DataType}
    (h : Derives ls type) (hls : ∀ l ∈ ls, l.Proper) : type.NamesAreIdentifiers := by
  match h with
  | .string | .int | .bool => trivial
  | .list helement =>
    rw [NamesAreIdentifiers]
    exact helement.namesAreIdentifiers fun l hl => hls l (by simp [hl])
  | .map hkey hvalue =>
    rw [NamesAreIdentifiers]
    constructor
    · exact hkey.namesAreIdentifiers fun l hl => hls l (by simp [hl])
    · exact hvalue.namesAreIdentifiers fun l hl => hls l (by simp [hl])
  | .emptyRecord => trivial
  | .record hfields hnodup =>
    rw [ofFields, NamesAreIdentifiers, inFields_iff]
    intro f hf
    rw [SortedEntries.mem_toList_ofList_iff hnodup] at hf
    exact hfields.namesAreIdentifiers (fun l hl => hls l (by simp [hl])) f hf

theorem DerivesFields.namesAreIdentifiers {ls : List Lexeme} {fields : List (String × DataType)}
    (h : DerivesFields ls fields) (hls : ∀ l ∈ ls, l.Proper) :
    ∀ f ∈ fields, IsIdentifier f.1 ∧ f.2.NamesAreIdentifiers := by
  match h with
  | .last htype =>
    rw [List.forall_mem_singleton]
    constructor
    · exact proper_word_iff.mp (hls _ (by simp))
    · exact htype.namesAreIdentifiers fun l hl => hls l (by simp [hl])
  | .more htype hrest =>
    rw [List.forall_mem_cons]
    refine ⟨⟨proper_word_iff.mp (hls _ (by simp)), ?_⟩, ?_⟩
    · exact htype.namesAreIdentifiers fun l hl => hls l (by simp [hl])
    · exact hrest.namesAreIdentifiers fun l hl => hls l (by simp [hl])

end

theorem scan_text (w : TypeWord) : scan w.text.toList = [word w.text] :=
  scan_word (isIdentifier_text w)

theorem scan_container (w : TypeWord) (inner : String) :
    scan (w.text.toList ++ '<' :: (inner.toList ++ ['>'])) =
      word w.text :: mark '<' :: (scan inner.toList ++ [mark '>']) := by
  rw [scan_append_mark _ _ (by decide) (by decide), scan_text,
    scan_append_mark _ _ (by decide) (by decide), scan_nil]
  rfl

theorem scan_comma (a b : String) :
    scan (a ++ ", " ++ b).toList = scan a.toList ++ mark ',' :: scan b.toList := by
  have htext : (a ++ ", " ++ b).toList = a.toList ++ ',' :: ' ' :: b.toList := by simp
  rw [htext, scan_append_mark _ _ (by decide) (by decide), scan_blank (by decide)]

theorem scan_field (text : String) {name : String} (h : IsIdentifier name) :
    scan (text ++ " " ++ name).toList = scan text.toList ++ [word name] := by
  have htext : (text ++ " " ++ name).toList = text.toList ++ ' ' :: name.toList := by simp
  rw [htext, scan_append_blank _ _ (by decide) (by decide), scan_word h]

mutual

theorem Renders.derives {type : DataType} {text : String} (h : Renders type text)
    (hn : type.NamesAreIdentifiers) : Derives (scan text.toList) type := by
  match h with
  | .string =>
    change Derives (scan TypeWord.string.text.toList) string
    rw [scan_text]
    exact .string
  | .int =>
    change Derives (scan TypeWord.int.text.toList) int
    rw [scan_text]
    exact .int
  | .bool =>
    change Derives (scan TypeWord.bool.text.toList) bool
    rw [scan_text]
    exact .bool
  | @Renders.list _ t helement =>
    have htext : ("list<" ++ t ++ ">").toList =
        TypeWord.list.text.toList ++ '<' :: (t.toList ++ ['>']) := by
      simp [TypeWord.text]
    rw [NamesAreIdentifiers] at hn
    rw [htext, scan_container]
    exact .list (helement.derives hn)
  | @Renders.map _ _ k v hkey hvalue =>
    have htext : ("map<" ++ k ++ ", " ++ v ++ ">").toList =
        TypeWord.map.text.toList ++ '<' :: ((k ++ ", " ++ v).toList ++ ['>']) := by
      simp [TypeWord.text]
    rw [NamesAreIdentifiers] at hn
    rw [htext, scan_container, scan_comma, List.append_assoc]
    exact .map (hkey.derives hn.1) (hvalue.derives hn.2)
  -- the parser collects the fields in the order of the text, and the map forgets that order
  | @Renders.record _ order parts hperm hfields =>
    have htext : ("record<" ++ String.intercalate ", " parts ++ ">").toList =
        TypeWord.record.text.toList ++
          '<' :: ((String.intercalate ", " parts).toList ++ ['>']) := by
      simp [TypeWord.text]
    rw [NamesAreIdentifiers, inFields_iff] at hn
    rw [htext, scan_container, ← SortedEntries.ofList_of_perm hperm]
    by_cases hne : order = []
    · subst hne
      cases hfields
      rw [String.intercalate_nil, String.toList_empty, scan_nil]
      exact .emptyRecord
    · have hnodup : (order.map Prod.fst).Nodup :=
        (hperm.map Prod.fst).nodup_iff.mpr (SortedEntries.nodup_names _)
      exact .record (hfields.derives hne fun f hf => hn f (hperm.mem_iff.mp hf)) hnodup

theorem RendersFields.derives {order : List (String × DataType)} {parts : List String}
    (h : RendersFields order parts) (hne : order ≠ [])
    (hn : ∀ f ∈ order, IsIdentifier f.1 ∧ f.2.NamesAreIdentifiers) :
    DerivesFields (scan (String.intercalate ", " parts).toList) order := by
  match h with
  | .nil => exact absurd rfl hne
  | .cons htype hrest =>
    obtain ⟨hname, htypeNames⟩ := hn _ List.mem_cons_self
    have hmore := fun hne => hrest.derives hne fun f hf => hn f (List.mem_cons_of_mem _ hf)
    cases hrest with
    | nil =>
      rw [String.intercalate_singleton, scan_field _ hname]
      exact .last (htype.derives htypeNames)
    | cons htype' hrest =>
      rw [String.intercalate_cons_cons, scan_comma, scan_field _ hname, List.append_assoc]
      exact .more (htype.derives htypeNames) (hmore (List.cons_ne_nil _ _))

end

/-- Every text of a type, among them the one that is rendered, parses back to it just when the
names are identifiers and the nesting is within the limit; so it is for every type that comes from
a text. -/
theorem parse_eq_ok_iff_of_renders {type : DataType} {text : String} (h : Renders type text) :
    (parse text = .ok type ↔ type.NamesAreIdentifiers ∧ type.depth ≤ 128) ∧
      (∀ source, parse source = .ok type → parse text = .ok type) ∧
      Renders type type.render := by
  have hnames : ∀ source, parse source = .ok type →
      type.NamesAreIdentifiers ∧ type.depth ≤ 128 := by
    intro source hsource
    obtain ⟨hderives, hdepth⟩ := parse_eq_ok_iff_scan.mp hsource
    exact ⟨hderives.namesAreIdentifiers fun l hl => proper_of_mem_scan hl, hdepth⟩
  have hback : type.NamesAreIdentifiers ∧ type.depth ≤ 128 → parse text = .ok type := by
    rintro ⟨hn, hdepth⟩
    exact parse_eq_ok_iff_scan.mpr ⟨h.derives hn, hdepth⟩
  exact ⟨⟨hnames text, hback⟩, fun source hsource => hback (hnames source hsource),
    renders_render type⟩

/-- The order of the fields is not that of the map, and a name is a word of the types. -/
theorem parse_eq_ok_of_renders_record :
    Renders (ofFields [("int", .list .bool), ("b", .map .int .string)])
        "record<list<bool> int, map<int, string> b>" ∧
      parse "record<list<bool> int, map<int, string> b>" =
        .ok (ofFields [("int", .list .bool), ("b", .map .int .string)]) := by
  have hfields : RendersFields [("int", .list .bool), ("b", .map .int .string)]
      ["list<bool> int", "map<int, string> b"] :=
    .cons (.list .bool) (.cons (.map .int .string) .nil)
  have h : Renders (ofFields [("int", .list .bool), ("b", .map .int .string)])
      "record<list<bool> int, map<int, string> b>" := .record (List.Perm.swap _ _ []) hfields
  have hnames : (ofFields [("int", .list .bool), ("b", .map .int .string)]).NamesAreIdentifiers :=
    ⟨⟨_, _, rfl, by decide, List.all_eq_true.mp (by decide)⟩, ⟨trivial, trivial⟩,
      ⟨_, _, rfl, by decide, List.all_eq_true.mp (by decide)⟩, trivial, trivial⟩
  exact ⟨h, (parse_eq_ok_iff_of_renders h).1.mpr ⟨hnames, by decide⟩⟩

end ComponentGraph.DataType
