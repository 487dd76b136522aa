import ComponentGraph.Json.Value
import ComponentGraph.Yaml.Tree

/-!
# Copies of documents

The copy of a node as a configuration value answers like the node. Looking up a key and copying
can be done in either order, although a node leaves out the entries whose keys are no strings and
a copy keeps them; so this holds along any sequence of keys, and where one has no value for the
next key the other has none.
-/

set_option autoImplicit false

namespace ComponentGraph

/-- What is reached along the keys, or else the number of the first key without a value. -/
def follow {α : Type} (get? : α → String → Option α) : α → List String → Except Nat α
  | a, [] => .ok a
  | a, key :: keys =>
    match get? a key with
    | none => .error 0
    | some b => (follow get? b keys).mapError Nat.succ

theorem follow_map {α β : Type} {get? : α → String → Option α} {get?' : β → String → Option β}
    {f : α → β} (h : ∀ a key, get?' (f a) key = (get? a key).map f) (a : α) (keys : List String) :
    follow get?' (f a) keys = (follow get? a keys).map f := by
  induction keys generalizing a with
  | nil => rfl
  | cons key keys ih =>
    rw [follow, follow, h]
    cases get? a key with
    | none => rfl
    | some b =>
      simp only [Option.map_some, ih b]
      cases follow get? b keys <;> rfl

namespace ConfigValue

/-- The entries of a mapping whose keys are strings, in order. -/
def named (entries : List (ConfigValue × ConfigValue)) : List (String × ConfigValue) :=
  entries.filterMap fun e => e.1.string?.map fun key => (key, e.2)

theorem find?_named (entries : List (ConfigValue × ConfigValue)) (key : String) :
    ((named entries).find? fun e => e.1 == key).map Prod.snd =
      (entries.find? fun e => e.1.string? == some key).map Prod.snd := by
  induction entries with
  | nil => rfl
  | cons e entries ih =>
    unfold named at ih ⊢
    cases hkey : e.1.string? with
    | none => simpa [hkey] using ih
    | some text =>
      by_cases heq : text = key
      · simp [hkey, heq]
      · simpa [hkey, heq] using ih

end ConfigValue

namespace Document

variable {δ : Type}

/-- The values that can be the copy of a node of a shape. -/
inductive Copies (copy : δ → ConfigValue) : Shape δ → ConfigValue → Prop
  | null : Copies copy .null .null
  | bool (value : Bool) : Copies copy .bool (.bool value)
  | int (value : Int64) : Copies copy .number (.int value)
  | float (value : Float) : Copies copy .number (.float value)
  | string (text : String) : Copies copy (.string text) (.string text)
  | sequence (items : List δ) : Copies copy (.sequence items) (.sequence (items.map copy))
  | mapping {entries : List (String × δ)} {copied : List (ConfigValue × ConfigValue)} :
    ConfigValue.named copied = entries.map (fun e => (e.1, copy e.2)) →
    Copies copy (.mapping entries) (.mapping copied)

variable [Document δ] {d : δ}

theorem string?_of_copies (h : Copies copy (shape d) (copy d)) : (copy d).string? = string? d := by
  rw [string?]
  generalize shape d = s, copy d = v at h
  cases h <;> rfl

theorem isNull_of_copies (h : Copies copy (shape d) (copy d)) : (copy d).isNull = isNull d := by
  rw [isNull, kind]
  generalize shape d = s, copy d = v at h
  cases h <;> rfl

theorem items?_of_copies (h : Copies copy (shape d) (copy d)) :
    (copy d).items? = (items? d).map (List.map copy) := by
  rw [items?]
  generalize shape d = s, copy d = v at h
  cases h <;> rfl

theorem get?_of_copies (h : Copies copy (shape d) (copy d)) (key : String) :
    (copy d).get? key = (get? d key).map copy := by
  rw [get?, entries?, ConfigValue.get?]
  generalize shape d = s, copy d = v at h
  cases h with
  | mapping hnamed =>
    simp only [ConfigValue.entries?, Option.bind_some, ← ConfigValue.find?_named, hnamed,
      List.find?_map, Option.map_map]
    rfl
  | _ => rfl

end Document

namespace Number

theorem copies_toConfig {δ : Type} (copy : δ → ConfigValue) (n : Number) :
    Document.Copies copy .number n.toConfig := by
  cases n with
  | integer value lower upper =>
    rw [toConfig]
    split
    · exact .int _
    · exact .float _
  | double value => exact .float value

end Number

namespace Yaml.Tree

theorem copy_untag (t : Tree) : t.untag.copy = t.copy := by
  fun_induction untag t with
  | case1 tag node ih => exact ih
  | case2 => rfl

theorem copyItems_eq_map (items : List Tree) : copy.copyItems items = items.map copy := by
  induction items with
  | nil => rfl
  | cons t items ih => rw [copy.copyItems, ih, List.map_cons]

theorem string?_copy (t : Tree) : t.copy.string? = t.text? := by
  rw [text?, ← copy_untag]
  cases h : t.untag with
  | tagged tag node => exact absurd h (t.untag_ne_tagged tag node)
  | number value =>
    have hcopies := Number.copies_toConfig copy value
    rw [copy]
    generalize value.toConfig = v at hcopies
    cases hcopies <;> rfl
  | _ => rfl

theorem named_copyEntries (entries : List (Tree × Tree)) :
    ConfigValue.named (copy.copyEntries entries) =
      (named entries).map fun e => (e.1, e.2.copy) := by
  induction entries with
  | nil => rfl
  | cons e entries ih =>
    -- A key is a string in the copy just when it is one in the tree, whatever its tags.
    unfold ConfigValue.named named at ih ⊢
    rw [copy.copyEntries]
    cases hkey : e.1.text? <;> simp [string?_copy, hkey, ih]

theorem copies (t : Tree) : Document.Copies Tree.copy t.shape t.copy := by
  rw [shape, ← copy_untag]
  cases h : t.untag with
  | null => exact .null
  | bool value => exact .bool value
  | number value => exact Number.copies_toConfig copy value
  | string text => exact .string text
  | sequence items =>
    rw [copy, copyItems_eq_map]
    exact .sequence items
  | mapping entries => exact .mapping (named_copyEntries entries)
  | tagged tag node => exact absurd h (t.untag_ne_tagged tag node)

end Yaml.Tree

namespace Json.Value

theorem copyItems_eq_map (items : List Value) : copy.copyItems items = items.map copy := by
  induction items with
  | nil => rfl
  | cons v items ih => rw [copy.copyItems, ih, List.map_cons]

theorem named_copyMembers {low : Option String} (members : SortedEntries Value low) :
    ConfigValue.named (copy.copyMembers members) =
      members.toList.map fun e => (e.1, e.2.copy) := by
  induction members with
  | nil => rfl
  | cons name _ v rest ih =>
    rw [copy.copyMembers, SortedEntries.toList, List.map_cons, ← ih]
    rfl

theorem copies (v : Value) : Document.Copies Value.copy v.shape v.copy := by
  cases v with
  | null => exact .null
  | bool value => exact .bool value
  | number value => exact Number.copies_toConfig copy value
  | string text => exact .string text
  | array items =>
    rw [copy, copyItems_eq_map]
    exact .sequence items
  | object members => exact .mapping (named_copyMembers members)

end Json.Value

namespace Document

/-- A node and its copy answer alike, and so do the nodes that are reached from them. -/
structure CopiedAlike {δ : Type} [Document δ] (d : δ) : Prop where
  follow_eq : ∀ keys, follow ConfigValue.get? (copy d) keys = (follow get? d keys).map copy
  string?_eq : (copy d).string? = string? d
  isNull_eq : (copy d).isNull = isNull d
  length_eq : (copy d).items?.map List.length = (items? d).map List.length

theorem copiedAlike {δ : Type} [Document δ] (h : ∀ d : δ, Copies copy (shape d) (copy d)) (d : δ) :
    CopiedAlike d where
  follow_eq := follow_map (fun d => get?_of_copies (h d)) d
  string?_eq := string?_of_copies (h d)
  isNull_eq := isNull_of_copies (h d)
  length_eq := by
    rw [items?_of_copies (h d), Option.map_map]
    congr 1
    funext items
    exact List.length_map copy

/-- In both formats keys can be followed in the document or in its copy, with the same result and
with the same first key that has no value. -/
theorem copiedAlike_of_format :
    (∀ t : Yaml.Tree, CopiedAlike t) ∧ ∀ v : Json.Value, CopiedAlike v :=
  ⟨copiedAlike Yaml.Tree.copies, copiedAlike Json.Value.copies⟩

end Document

end ComponentGraph
