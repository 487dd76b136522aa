import ComponentGraph.Proofs.DataType.Parsing
import ComponentGraph.Proofs.Manifest.WellFormed

/-!
# The path of a node

Decoding takes the path of its node along for the sake of its errors. Under a longer path it does
the same, and the errors of shape tell the longer path; so what a node decodes to does not depend
on where it stands.
-/

set_option autoImplicit false

namespace ComponentGraph

namespace Fault

/-- The error as it is told when its node stands under a path. -/
def under (path : Path) (e : Fault) : Fault :=
  match e.cause with
  | .wrongKind expected p found => { e with cause := .wrongKind expected (path ++ p) found }
  | _ => e

def IsShapeError (e : Fault) : Prop :=
  ∃ expected path found, e.cause = .wrongKind expected path found

theorem under_of_not_isShapeError {e : Fault} (h : ¬ e.IsShapeError) (path : Path) :
    e.under path = e := by
  unfold under
  split
  · rename_i he
    exact absurd ⟨_, _, _, he⟩ h
  · rfl

end Fault

/-- A computation that uses its path for nothing but errors of shape. -/
def Relocates {α : Type} (f : Path → Except Fault α) : Prop :=
  ∀ path p, f (path ++ p) = (f p).mapError (Fault.under path)

namespace Relocates

variable {α β : Type} {f : Path → Except Fault α}

theorem eq_ok_iff (h : Relocates f) {path : Path} {a : α} : f path = .ok a ↔ f .root = .ok a := by
  have hroot := h path .root
  rw [Path.root, List.append_nil] at hroot
  rw [hroot, mapError_eq_ok_iff]
  rfl

theorem ok_iff_ok (h : Relocates f) (p q : Path) {a : α} : f p = .ok a ↔ f q = .ok a :=
  h.eq_ok_iff.trans h.eq_ok_iff.symm

theorem congr {g : Path → Except Fault α} (hfg : ∀ p, f p = g p) (h : Relocates g) :
    Relocates f := by
  rwa [funext hfg]

theorem ok (a : α) : Relocates fun _ => .ok a := fun _ _ => rfl

theorem of_text {r : Except Fault α} (h : ∀ e, r = .error e → ¬ e.IsShapeError) :
    Relocates fun _ => r := by
  intro path p
  cases r with
  | ok a => rfl
  | error e => exact congrArg Except.error (Fault.under_of_not_isShapeError (h e rfl) path).symm

theorem key (h : Relocates f) (name : String) : Relocates fun p => f (p.key name) := by
  intro path p
  have hkey : (path ++ p).key name = path ++ p.key name := List.append_assoc path p _
  dsimp only
  rw [hkey, h]

theorem index (h : Relocates f) (i : Nat) : Relocates fun p => f (p.index i) := by
  intro path p
  have hindex : (path ++ p).index i = path ++ p.index i := List.append_assoc path p _
  dsimp only
  rw [hindex, h]

/-- The rest needs to be looked at only for values that can arise. -/
theorem bind_of_ok (h : Relocates f) {g : α → Path → Except Fault β}
    (hg : ∀ a p, f p = .ok a → Relocates (g a)) : Relocates fun p => f p >>= fun a => g a p := by
  intro path p
  dsimp only
  rw [h]
  cases hf : f p with
  | ok a => exact hg a p hf path p
  | error e => rfl

theorem bind (h : Relocates f) {g : α → Path → Except Fault β} (hg : ∀ a, Relocates (g a)) :
    Relocates fun p => f p >>= fun a => g a p := h.bind_of_ok fun a _ _ => hg a

theorem map (h : Relocates f) (g : α → β) : Relocates fun p => (f p).map g := by
  intro path p
  dsimp only
  rw [h]
  cases f p <;> rfl

theorem mapM {l : List α} {g : α → Path → Except Fault β} (hg : ∀ a ∈ l, Relocates (g a)) :
    Relocates fun p => l.mapM fun a => g a p := by
  induction l with
  | nil => exact ok []
  | cons a l ih =>
    obtain ⟨ha, hl⟩ := List.forall_mem_cons.mp hg
    simp only [List.mapM_cons]
    exact ha.bind fun b => (ih hl).bind fun bs => ok (b :: bs)

end Relocates

/-! The errors of texts are no errors of shape. -/

theorem DataType.not_isShapeError_of_parse {text : String} {e : Fault}
    (h : DataType.parse text = .error e) : ¬ e.IsShapeError := by
  obtain ⟨-, m, expectation, -, -, -, rfl⟩ := parse_eq_error_iff.mp h
  rintro ⟨expected, path, found, hcause⟩
  unfold Expectation.fault Expectation.complaint at hcause
  grind

theorem Pin.not_isShapeError_of_signal {direction : Direction} {origin : Position}
    {payload : String} {e : Fault} (h : Pin.signal direction origin payload = .error e) :
    ¬ e.IsShapeError := by
  unfold signal at h
  split at h
  · cases h
  · rename_i hparse
    cases h
    intro he
    exact DataType.not_isShapeError_of_parse hparse he

theorem Pin.not_isShapeError_of_ofSpec {text : String} {e : Fault}
    (h : Pin.ofSpec text = .error e) : ¬ e.IsShapeError := by
  unfold ofSpec at h
  split at h
  · cases h
    rintro ⟨expected, path, found, hcause⟩
    unfold malformed at hcause
    split at hcause <;> cases hcause
  · grind [not_isShapeError_of_signal, Fault.IsShapeError]

theorem PinBinding.not_isShapeError_of_ofText {text : String} {e : Fault}
    (h : PinBinding.ofText text = .error e) : ¬ e.IsShapeError := by
  unfold ofText at h
  grind [Fault.IsShapeError]

theorem BindingTarget.not_isShapeError_of_ofText {text : String} {e : Fault}
    (h : BindingTarget.ofText text = .error e) : ¬ e.IsShapeError := by
  unfold ofText at h
  grind [Fault.IsShapeError]

namespace Manifest

open Document

variable {δ α β : Type} [Document δ]

theorem relocates_expect (form : δ → Option α) (expected : Kind) (node : δ) :
    Relocates (expect form expected node) := by
  intro path p
  rw [expect, expect]
  cases form node <;> rfl

theorem relocates_typeName? (node : δ) : Relocates (typeName? node) := by
  unfold typeName?
  cases present? node "type" with
  | none => exact .ok none
  | some type => exact ((relocates_expect string? .string type).key "type").map _

theorem relocates_configuration (node : δ) : Relocates (configuration node) := by
  unfold configuration
  cases present? node "configuration" with
  | none => exact .ok ∅
  | some values => exact ((relocates_expect entries? .mapping values).key "configuration").map _

theorem relocates_pins {read : String → Except Fault α}
    (hread : ∀ text e, read text = .error e → ¬ e.IsShapeError) (node : δ) :
    Relocates (pins read node) := by
  unfold pins
  by_cases hnull : isNull node = true
  · simp only [hnull, if_true]
    exact .ok ∅
  · simp only [hnull]
    refine (relocates_expect entries? .mapping node).bind fun entries => ?_
    refine (Relocates.mapM fun e _ => ?_).bind fun pins => .ok _
    refine ((relocates_expect string? .string e.2).key e.1).bind fun text => ?_
    exact (Relocates.of_text (hread text)).bind fun pin => .ok _

theorem relocates_interfaces {read : String → Except Fault α}
    (hread : ∀ text e, read text = .error e → ¬ e.IsShapeError) (make : NameMap α → β)
    (node : δ) : Relocates (interfaces read make node) := by
  unfold interfaces
  cases present? node "interfaces" with
  | none => exact .ok ∅
  | some part =>
    refine ((relocates_expect entries? .mapping part).key "interfaces").bind fun entries => ?_
    refine (Relocates.mapM fun e _ => ?_).bind fun interfaces => .ok _
    exact (((relocates_pins hread e.2).key e.1).key "interfaces").bind fun pins => .ok _

theorem relocates_requiredNames (node : δ) : Relocates (requiredNames node) := by
  unfold requiredNames
  cases present? node "required" with
  | none => exact .ok []
  | some names => exact ((relocates_expect items? .sequence names).key "required").map _

theorem relocates_leaf (node : δ) : Relocates (leaf node) := by
  unfold leaf
  refine (relocates_typeName? node).bind fun type => ?_
  refine (relocates_configuration node).bind fun configuration => ?_
  refine (relocates_interfaces (fun _ _ => Pin.not_isShapeError_of_ofSpec) _ node).bind fun _ => ?_
  exact (relocates_requiredNames node).bind fun required => .ok _

theorem relocates_binding (node : δ) : Relocates (binding node) := by
  unfold binding
  split
  · rename_i left right _
    refine ((relocates_expect string? .string left).index 0).bind fun left => ?_
    refine ((relocates_expect string? .string right).index 1).bind fun right => ?_
    unfold Binding.ofTexts
    refine (Relocates.of_text fun _ => BindingTarget.not_isShapeError_of_ofText).bind fun _ => ?_
    exact (Relocates.of_text fun _ => BindingTarget.not_isShapeError_of_ofText).bind fun _ => .ok _
  · refine .of_text ?_
    rintro _ ⟨⟩ ⟨expected, path, found, hcause⟩
    cases hcause

theorem relocates_bindings (node : δ) : Relocates (bindings node) := by
  unfold bindings
  cases present? node "bindings" with
  | none => exact .ok []
  | some part =>
    refine ((relocates_expect items? .sequence part).key "bindings").bind fun items => ?_
    exact .mapM fun item _ => ((relocates_binding item.1).index item.2).key "bindings"

mutual

theorem relocates_component (node : δ) : Relocates (component node) := by
  refine .congr (component.eq_def node) ?_
  by_cases hnull : isNull node = true
  · simp only [hnull, if_true]
    exact .ok _
  · simp only [hnull]
    refine (relocates_expect entries? .mapping node).bind fun _ => ?_
    by_cases hpresent : (present? node "components").isSome = true
    · simp only [hpresent, if_true]
      exact (relocates_composite node).bind fun c => .ok _
    · simp only [hpresent]
      exact (relocates_leaf node).bind fun c => .ok _
termination_by 2 * size node + 2

theorem relocates_composite (node : δ) : Relocates (composite node) := by
  refine .congr (composite.eq_def node) ?_
  refine (relocates_expect entries? .mapping node).bind fun _ => ?_
  refine (relocates_typeName? node).bind fun type => ?_
  refine (relocates_configuration node).bind fun configuration => ?_
  refine (relocates_components node).bind fun components => ?_
  refine (relocates_interfaces (fun _ _ => PinBinding.not_isShapeError_of_ofText) _ node).bind
    fun _ => ?_
  exact (relocates_bindings node).bind fun bindings => .ok _
termination_by 2 * size node + 1

theorem relocates_components (node : δ) : Relocates (components node) := by
  cases hpresent : present? node "components" with
  | none =>
    exact .congr (components_of_absent hpresent) (.ok ∅)
  | some part =>
    have hsize := size_of_present? hpresent
    refine .congr (components_of_present hpresent) ?_
    refine ((relocates_expect entries? .mapping part).key "components").bind_of_ok
      fun entries p hentries => ?_
    refine (Relocates.mapM fun e he => ?_).bind fun components => .ok _
    have := size_of_entries? (expect_eq_ok_iff.mp hentries) e he
    exact (((relocates_component e.2).key e.1).key "components").bind fun c => .ok _
termination_by 2 * size node

end

end Manifest

end ComponentGraph
