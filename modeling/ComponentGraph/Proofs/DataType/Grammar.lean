import ComponentGraph.DataType.Parser
import ComponentGraph.Proofs.NameMap
import ComponentGraph.Proofs.Token.Lexeme

/-!
# The grammar of type expressions

    type   := "int" | "bool" | "string" | list | map | record
    list   := "list" "<" type ">"
    map    := "map" "<" type "," type ">"
    record := "record" "<" [ field ("," field)* ] ">"
    field  := type identifier

The names of the fields of one record differ. The grammar knows no limit of nesting; `Fits` adds
the limit for a type that stands inside of other containers.
-/

set_option autoImplicit false

namespace ComponentGraph.DataType

open Lexeme

mutual

/-- The lexemes are an expression of the type. -/
inductive Derives : List Lexeme → DataType → Prop
  | string : Derives [word "string"] string
  | int : Derives [word "int"] int
  | bool : Derives [word "bool"] bool
  | list {ls : List Lexeme} {element : DataType} :
    Derives ls element → Derives (word "list" :: mark '<' :: (ls ++ [mark '>'])) (list element)
  | map {ks vs : List Lexeme} {key value : DataType} :
    Derives ks key → Derives vs value →
    Derives (word "map" :: mark '<' :: (ks ++ mark ',' :: (vs ++ [mark '>']))) (map key value)
  | emptyRecord : Derives [word "record", mark '<', mark '>'] (ofFields [])
  | record {ls : List Lexeme} {fields : List (String × DataType)} :
    DerivesFields ls fields → (fields.map Prod.fst).Nodup →
    Derives (word "record" :: mark '<' :: (ls ++ [mark '>'])) (ofFields fields)

/-- The lexemes are one field or more, with commas between them. -/
inductive DerivesFields : List Lexeme → List (String × DataType) → Prop
  | last {ls : List Lexeme} {name : String} {type : DataType} :
    Derives ls type → DerivesFields (ls ++ [word name]) [(name, type)]
  | more {ls rest : List Lexeme} {name : String} {type : DataType}
      {fields : List (String × DataType)} :
    Derives ls type → DerivesFields rest fields →
    DerivesFields (ls ++ word name :: mark ',' :: rest) ((name, type) :: fields)

end

theorem isIdentifier_text (w : TypeWord) : IsIdentifier w.text := by
  cases w <;> exact ⟨_, _, rfl, by decide, List.all_eq_true.mp (by decide)⟩

theorem Derives.head {ls : List Lexeme} {type : DataType} (h : Derives ls type) :
    ∃ (w : TypeWord) (rest : List Lexeme), ls = word w.text :: rest := by
  cases h with
  | string => exact ⟨.string, _, rfl⟩
  | int => exact ⟨.int, _, rfl⟩
  | bool => exact ⟨.bool, _, rfl⟩
  | list => exact ⟨.list, _, rfl⟩
  | map => exact ⟨.map, _, rfl⟩
  | emptyRecord => exact ⟨.record, _, rfl⟩
  | record => exact ⟨.record, _, rfl⟩

mutual

theorem Derives.balanced {ls : List Lexeme} {type : DataType} (h : Derives ls type) :
    ls.count (mark '<') = ls.count (mark '>') := by
  match h with
  | .string | .int | .bool | .emptyRecord => decide
  | .list helement =>
    have := helement.balanced
    simp
    omega
  | .map hkey hvalue =>
    have := hkey.balanced
    have := hvalue.balanced
    simp
    omega
  | .record hfields _ =>
    have := hfields.balanced
    simp
    omega

theorem DerivesFields.balanced {ls : List Lexeme} {fields : List (String × DataType)}
    (h : DerivesFields ls fields) : ls.count (mark '<') = ls.count (mark '>') := by
  match h with
  | .last htype =>
    have := htype.balanced
    simpa using this
  | .more htype hrest =>
    have := htype.balanced
    have := hrest.balanced
    simp
    omega

end

theorem deepest_le_iff {low : Option String} (fields : SortedEntries DataType low) (k : Nat) :
    depth.deepest fields ≤ k ↔ ∀ f ∈ fields.toList, f.2.depth ≤ k := by
  induction fields with
  | nil => simp [depth.deepest, SortedEntries.toList]
  | cons name above type rest ih =>
    simp only [depth.deepest, SortedEntries.toList, Nat.max_le, ih, List.forall_mem_cons]

/-- The expression may stand inside of so many containers. -/
structure Fits (depth : Nat) (ls : List Lexeme) (type : DataType) : Prop where
  derives : Derives ls type
  depth_le : depth + type.depth ≤ maxDepth

section Fits

variable {depth : Nat} {ls ks vs : List Lexeme} {element key value : DataType}

theorem Fits.list (h : Fits (depth + 1) ls element) :
    Fits depth (word "list" :: mark '<' :: (ls ++ [mark '>'])) (list element) := by
  refine ⟨.list h.derives, ?_⟩
  have := h.depth_le
  rw [DataType.depth]
  omega

theorem Fits.map (hkey : Fits (depth + 1) ks key) (hvalue : Fits (depth + 1) vs value) :
    Fits depth (word "map" :: mark '<' :: (ks ++ mark ',' :: (vs ++ [mark '>'])))
      (map key value) := by
  refine ⟨.map hkey.derives hvalue.derives, ?_⟩
  have := hkey.depth_le
  have := hvalue.depth_le
  rw [DataType.depth]
  omega

end Fits

/-- Fields of one record, none of them with one of the given names. -/
structure FieldsFit (depth : Nat) (names : List String) (fields : List (String × DataType)) :
    Prop where
  nodup : (fields.map Prod.fst).Nodup
  fresh : ∀ f ∈ fields, f.1 ∉ names
  depth_le : ∀ f ∈ fields, depth + f.2.depth ≤ maxDepth

theorem FieldsFit.nil (depth : Nat) (names : List String) : FieldsFit depth names [] :=
  ⟨by simp, by simp, by simp⟩

theorem fieldsFit_cons {depth : Nat} {names : List String} {name : String} {type : DataType}
    {fields : List (String × DataType)} :
    FieldsFit depth names ((name, type) :: fields) ↔
      name ∉ names ∧ depth + type.depth ≤ maxDepth ∧ FieldsFit depth (name :: names) fields := by
  constructor
  · rintro ⟨hnodup, hfresh, hdepth⟩
    obtain ⟨hname, hnodup⟩ := List.nodup_cons.mp hnodup
    refine ⟨hfresh _ List.mem_cons_self, hdepth _ List.mem_cons_self, hnodup, ?_, ?_⟩
    · intro f hf hmem
      rcases List.mem_cons.mp hmem with heq | hmem
      · exact hname (List.mem_map.mpr ⟨f, hf, heq⟩)
      · exact hfresh f (List.mem_cons_of_mem _ hf) hmem
    · exact fun f hf => hdepth f (List.mem_cons_of_mem _ hf)
  · rintro ⟨hname, htype, hnodup, hfresh, hdepth⟩
    refine ⟨List.nodup_cons.mpr ⟨?_, hnodup⟩, ?_, List.forall_mem_cons.mpr ⟨htype, hdepth⟩⟩
    · intro hmem
      obtain ⟨f, hf, heq⟩ := List.mem_map.mp hmem
      exact hfresh f hf (heq ▸ List.mem_cons_self)
    · exact List.forall_mem_cons.mpr
        ⟨hname, fun f hf hmem => hfresh f hf (List.mem_cons_of_mem _ hmem)⟩

theorem depth_ofFields_le_iff {fields : List (String × DataType)}
    (h : (fields.map Prod.fst).Nodup) (d : Nat) :
    d + (ofFields fields).depth ≤ maxDepth ↔
      d < maxDepth ∧ ∀ f ∈ fields, d + 1 + f.2.depth ≤ maxDepth := by
  have hdeepest := deepest_le_iff (SortedEntries.ofList fields) (maxDepth - (d + 1))
  simp only [SortedEntries.mem_toList_ofList_iff h] at hdeepest
  rw [ofFields, depth]
  constructor
  · intro hd
    refine ⟨by omega, fun f hf => ?_⟩
    have := hdeepest.mp (by omega) f hf
    omega
  · rintro ⟨hd, hfields⟩
    have := hdeepest.mpr fun f hf => by
      have := hfields f hf
      omega
    omega

/-- The lexemes end a record, after fields with the given names or right at its start. -/
def ClosesRecord (depth : Nat) (start : Bool) (names : List String) (ls : List Lexeme)
    (fields : List (String × DataType)) : Prop :=
  (start = true ∧ ls = [mark '>'] ∧ fields = []) ∨
  ∃ fs, ls = fs ++ [mark '>'] ∧ DerivesFields fs fields ∧ FieldsFit depth names fields

section ClosesRecord

variable {depth : Nat} {start : Bool} {names : List String} {ls rest : List Lexeme}
  {name : String} {type : DataType} {fields : List (String × DataType)}

theorem ClosesRecord.last (h : Fits depth ls type) (hname : name ∉ names) :
    ClosesRecord depth start names (ls ++ [word name, mark '>']) [(name, type)] := by
  refine .inr ⟨ls ++ [word name], by simp, .last h.derives, ?_⟩
  exact fieldsFit_cons.mpr ⟨hname, h.depth_le, .nil _ _⟩

theorem ClosesRecord.more (h : Fits depth ls type) (hname : name ∉ names)
    (hrest : ClosesRecord depth false (name :: names) rest fields) :
    ClosesRecord depth start names (ls ++ word name :: mark ',' :: rest)
      ((name, type) :: fields) := by
  rcases hrest with ⟨hstart, -⟩ | ⟨fs, rfl, hfs, hfit⟩
  · cases hstart
  · exact .inr ⟨_, by simp, .more h.derives hfs, fieldsFit_cons.mpr ⟨hname, h.depth_le, hfit⟩⟩

theorem ClosesRecord.fits (hd : depth < maxDepth)
    (h : ClosesRecord (depth + 1) true [] ls fields) :
    Fits depth (word "record" :: mark '<' :: ls) (ofFields fields) := by
  rcases h with ⟨-, rfl, rfl⟩ | ⟨fs, rfl, hfs, hfit⟩
  · exact ⟨.emptyRecord, (depth_ofFields_le_iff (by simp) depth).mpr ⟨hd, by simp⟩⟩
  · exact ⟨.record hfs hfit.nodup,
      (depth_ofFields_le_iff hfit.nodup depth).mpr ⟨hd, hfit.depth_le⟩⟩

end ClosesRecord

end ComponentGraph.DataType
