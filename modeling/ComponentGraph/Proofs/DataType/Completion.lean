import ComponentGraph.Proofs.DataType.Expectation
import Mathlib.Algebra.Order.BigOperators.Group.List
import Mathlib.Algebra.Order.Group.Nat

/-!
# Completing the beginning of a type expression

Whatever an expectation admits can be followed by lexemes that end the expression, within the
limit of nesting and with names that no record has yet. The lexemes that are added are those of
some text.
-/

set_option autoImplicit false

namespace ComponentGraph.DataType

open Lexeme

theorem exists_fresh (names : List String) : ∃ name, IsIdentifier name ∧ name ∉ names := by
  -- a name that is longer than all of these together
  let longer := (names.map String.length).sum
  refine ⟨String.ofList ('a' :: List.replicate longer 'a'), ?_, ?_⟩
  · refine ⟨'a', _, String.toList_ofList, by decide, ?_⟩
    intro x hx
    rw [List.eq_of_mem_replicate hx]
    decide
  · intro hmem
    have hle := List.le_sum_of_mem (List.mem_map_of_mem (f := String.length) hmem)
    rw [String.length_ofList, List.length_cons, List.length_replicate] at hle
    exact absurd hle (Nat.not_succ_le_self longer)

/-- Lexemes that a text can have make the given ones a whole. -/
def Completes (ls : List Lexeme) (whole : List Lexeme → Prop) : Prop :=
  ∃ q, (∀ x ∈ q, x.Proper) ∧ whole (ls ++ q)

section Completes

variable {ls : List Lexeme} {whole : List Lexeme → Prop}

theorem Completes.of_whole (h : whole ls) : Completes ls whole :=
  ⟨[], by simp, by rwa [List.append_nil]⟩

/-- What completes an inner part is gone through before the rest is completed. -/
theorem Completes.nest {a : List Lexeme} {whole' : List Lexeme → Prop} (h : Completes ls whole)
    (hmore : ∀ m, whole m → Completes (a ++ m) whole') : Completes (a ++ ls) whole' := by
  obtain ⟨q, hq, hm⟩ := h
  obtain ⟨r, hr, hm'⟩ := hmore _ hm
  refine ⟨q ++ r, ?_, by simpa using hm'⟩
  intro x hx
  exact (List.mem_append.mp hx).elim (hq x) (hr x)

theorem Completes.of_append {l : Lexeme} (h : Completes (ls ++ [l]) whole) (hl : l.Proper) :
    Completes ls whole := by
  obtain ⟨q, hq, hm⟩ := h
  exact ⟨l :: q, List.forall_mem_cons.mpr ⟨hl, hq⟩, by simpa using hm⟩

end Completes

theorem proper_text (w : TypeWord) : (word w.text).Proper :=
  proper_word_iff.mpr (isIdentifier_text w)

theorem proper_of_mem_marks {c : Char} (hc : c ∈ ['<', '>', ',']) : (mark c).Proper := by
  simp only [List.mem_cons, List.not_mem_nil, or_false] at hc
  rcases hc with rfl | rfl | rfl <;> exact proper_mark (by decide) (by decide)

def FitsSome (depth : Nat) (ls : List Lexeme) : Prop := ∃ type, Fits depth ls type

def ClosesSome (depth : Nat) (start : Bool) (names : List String) (ls : List Lexeme) : Prop :=
  ∃ fields, ClosesRecord depth start names ls fields

section

variable {depth : Nat} {start : Bool} {names : List String} {ls ks : List Lexeme}
  {type element key : DataType} {name : String}

theorem Fits.completes_list (h : Fits (depth + 1) ls element) :
    Completes (word "list" :: mark '<' :: ls) (FitsSome depth) :=
  ⟨[mark '>'], by simpa using proper_of_mem_marks (by decide), _, h.list⟩

theorem Fits.completes_value (hkey : Fits (depth + 1) ks key) (h : Fits (depth + 1) ls element) :
    Completes (word "map" :: mark '<' :: (ks ++ mark ',' :: ls)) (FitsSome depth) :=
  ⟨[mark '>'], by simpa using proper_of_mem_marks (by decide), _, by simpa using hkey.map h⟩

/-- Any scalar will do for the value. -/
theorem Fits.completes_comma (h : Fits (depth + 1) ks key) :
    Completes (word "map" :: mark '<' :: (ks ++ [mark ','])) (FitsSome depth) := by
  have hd := h.depth_le
  have hint : Fits (depth + 1) [word "int"] int := ⟨.int, by rw [DataType.depth]; omega⟩
  have hvalue := h.completes_value hint
  rw [List.append_cons] at hvalue
  exact hvalue.of_append (proper_text .int)

theorem Fits.completes_key (h : Fits (depth + 1) ks key) :
    Completes (word "map" :: mark '<' :: ks) (FitsSome depth) :=
  h.completes_comma.of_append (proper_of_mem_marks (by decide))

theorem completes_opening {w : TypeWord} (hw : w.isContainer = true) (hd : depth < maxDepth) :
    Completes [word w.text, mark '<'] (FitsSome depth) := by
  have hint : Fits (depth + 1) [word "int"] int := ⟨.int, hd⟩
  cases w with
  | string | int | bool => cases hw
  | list => exact hint.completes_list.of_append (proper_text .int)
  | map => exact hint.completes_key.of_append (proper_text .int)
  | record =>
    have hrecord : FitsSome depth [word "record", mark '<', mark '>'] :=
      ⟨_, ClosesRecord.fits hd (.inl ⟨rfl, rfl, rfl⟩)⟩
    exact (Completes.of_whole hrecord).of_append (proper_of_mem_marks (by decide))

theorem completes_word {w : TypeWord} (hd : depth ≤ maxDepth)
    (hw : w.isContainer = true → depth < maxDepth) :
    Completes [word w.text] (FitsSome depth) := by
  by_cases hc : w.isContainer = true
  · exact (completes_opening hc (hw hc)).of_append (proper_of_mem_marks (by decide))
  · apply Completes.of_whole
    cases w with
    | string => exact ⟨_, .string, hd⟩
    | int => exact ⟨_, .int, hd⟩
    | bool => exact ⟨_, .bool, hd⟩
    | list | map | record => exact absurd rfl hc

theorem Fits.completes_name (h : Fits depth ls type) (hname : name ∉ names) :
    Completes (ls ++ [word name]) (ClosesSome depth start names) :=
  ⟨[mark '>'], by simpa using proper_of_mem_marks (by decide), _, by simpa using .last h hname⟩

theorem Fits.completes_fieldType (h : Fits depth ls type) :
    Completes ls (ClosesSome depth start names) := by
  obtain ⟨name, hproper, hname⟩ := exists_fresh names
  exact (h.completes_name hname).of_append (proper_word_iff.mpr hproper)

theorem completes_fieldWord {w : TypeWord} (hd : depth ≤ maxDepth)
    (hw : w.isContainer = true → depth < maxDepth) :
    Completes [word w.text] (ClosesSome depth start names) := by
  refine (completes_word hd hw).nest (a := []) ?_
  rintro m ⟨type, hm⟩
  exact hm.completes_fieldType

theorem Fits.completes_more (h : Fits depth ls type) (hname : name ∉ names) {rest : List Lexeme}
    (hrest : Completes rest (ClosesSome depth false (name :: names))) :
    Completes (ls ++ word name :: mark ',' :: rest) (ClosesSome depth start names) := by
  obtain ⟨q, hq, fields, hclose⟩ := hrest
  exact ⟨q, hq, _, by simpa using ClosesRecord.more h hname hclose⟩

theorem Fits.completes_separator (h : Fits depth ls type) (hname : name ∉ names) :
    Completes (ls ++ [word name, mark ',']) (ClosesSome depth start names) := by
  have hd : depth ≤ maxDepth := Nat.le_of_add_right_le h.depth_le
  have hnext : Completes (ls ++ word name :: mark ',' :: [word "int"])
      (ClosesSome depth start names) :=
    h.completes_more hname (completes_fieldWord (w := .int) hd nofun)
  rw [List.append_cons, List.append_cons] at hnext
  simpa using hnext.of_append (proper_text .int)

mutual

theorem Awaits.completes {depth : Nat} {p : List Lexeme} {e : Expectation} (h : Awaits depth p e)
    (hd : depth ≤ maxDepth) {l : Lexeme} (hl : e.Admits l) :
    Completes (p ++ [l]) (FitsSome depth) := by
  match h with
  | .type =>
    obtain ⟨w, rfl, hw⟩ | ⟨hclose, -⟩ := hl
    · exact completes_word hd hw
    · cases hclose
  | .opening hw hd' =>
    obtain ⟨c, hc, rfl⟩ := hl
    obtain rfl := List.mem_singleton.mp hc
    exact completes_opening hw hd'
  | .listElement hd' hp =>
    refine (hp.completes hd' hl).nest (a := [word "list", mark '<']) ?_
    rintro m ⟨element, hm⟩
    exact hm.completes_list
  | .listClose hfit =>
    obtain ⟨c, hc, rfl⟩ := hl
    obtain rfl := List.mem_singleton.mp hc
    exact .of_whole ⟨_, hfit.list⟩
  | .mapKey hd' hp =>
    refine (hp.completes hd' hl).nest (a := [word "map", mark '<']) ?_
    rintro m ⟨key, hm⟩
    exact hm.completes_key
  | .mapComma hfit =>
    obtain ⟨c, hc, rfl⟩ := hl
    obtain rfl := List.mem_singleton.mp hc
    exact hfit.completes_comma
  | @Awaits.mapValue _ ks p _ _ hfit hp =>
    have hd' := hfit.depth_le
    have h : Completes ((word "map" :: mark '<' :: (ks ++ [mark ','])) ++ (p ++ [l]))
        (FitsSome depth) := by
      refine (hp.completes (by omega) hl).nest ?_
      rintro m ⟨value, hm⟩
      simpa using hfit.completes_value hm
    simpa using h
  | .mapClose hfit hfit' =>
    obtain ⟨c, hc, rfl⟩ := hl
    obtain rfl := List.mem_singleton.mp hc
    exact .of_whole ⟨_, by simpa using hfit.map hfit'⟩
  | .recordFields hd' hp =>
    refine (hp.completes hd' hl).nest (a := [word "record", mark '<']) ?_
    rintro m ⟨fields, hm⟩
    exact .of_whole ⟨_, hm.fits hd'⟩

theorem AwaitsFields.completes {depth : Nat} {start : Bool} {names : List String}
    {p : List Lexeme} {e : Expectation} (h : AwaitsFields depth start names p e)
    (hd : depth ≤ maxDepth) {l : Lexeme} (hl : e.Admits l) :
    Completes (p ++ [l]) (ClosesSome depth start names) := by
  match h with
  | .start =>
    obtain ⟨w, rfl, hw⟩ | ⟨-, rfl⟩ := hl
    · exact completes_fieldWord hd hw
    · exact .of_whole ⟨_, .inl ⟨rfl, rfl, rfl⟩⟩
  | .type _ hp =>
    refine (hp.completes hd hl).nest (a := []) ?_
    rintro m ⟨type, hm⟩
    exact hm.completes_fieldType
  | .name hfit =>
    obtain ⟨name, hname, rfl⟩ := hl
    exact hfit.completes_name hname
  | .separator hfit hname =>
    obtain ⟨c, hc, rfl⟩ := hl
    simp only [List.mem_cons, List.not_mem_nil, or_false] at hc
    rcases hc with rfl | rfl
    · simpa using hfit.completes_separator hname
    · exact .of_whole ⟨_, by simpa using .last hfit hname⟩
  | .more hfit hname hp =>
    simpa using hfit.completes_more hname (hp.completes hd hl)

end

mutual

theorem Awaits.exists_admits {depth : Nat} {p : List Lexeme} {e : Expectation}
    (h : Awaits depth p e) : ∃ l, l.Proper ∧ e.Admits l := by
  match h with
  | .type => exact ⟨_, proper_text .int, .inl ⟨.int, rfl, nofun⟩⟩
  | .opening .. | .listClose .. | .mapComma .. | .mapClose .. =>
    exact ⟨_, proper_of_mem_marks (by decide), _, List.mem_singleton.mpr rfl, rfl⟩
  | .listElement _ hp | .mapKey _ hp | .mapValue _ hp => exact hp.exists_admits
  | .recordFields _ hp => exact hp.exists_admits

theorem AwaitsFields.exists_admits {depth : Nat} {start : Bool} {names : List String}
    {p : List Lexeme} {e : Expectation} (h : AwaitsFields depth start names p e) :
    ∃ l, l.Proper ∧ e.Admits l := by
  match h with
  | .start => exact ⟨_, proper_text .int, .inl ⟨.int, rfl, nofun⟩⟩
  | .type _ hp => exact hp.exists_admits
  | .name _ =>
    obtain ⟨name, hproper, hname⟩ := exists_fresh names
    exact ⟨_, proper_word_iff.mpr hproper, name, hname, rfl⟩
  | .separator .. => exact ⟨_, proper_of_mem_marks (by decide), ',', by decide, rfl⟩
  | .more _ _ hp => exact hp.exists_admits

end

end

end ComponentGraph.DataType
