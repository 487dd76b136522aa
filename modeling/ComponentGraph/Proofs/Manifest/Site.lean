import ComponentGraph.Manifest

/-!
# The sites of a manifest

A site is a node at which a manifest demands something, with the path on which the node is blamed
when the demand is not met. The sites of a document are listed in the order of decoding, and they
are all there whether or not any demand is met; only a node that is not of the shape to have parts
has no sites inside. Keys and indices of the path of a site lead to its node. What decoding makes
of the sites is not said here.
-/

set_option autoImplicit false

namespace ComponentGraph

/-- The words for kinds in messages. -/
inductive Kind.Named : Kind → String → Prop
  | null : Named .null "null"
  | bool : Named .bool "bool"
  | number : Named .number "number"
  | string : Named .string "string"
  | sequence : Named .sequence "sequence"
  | mapping : Named .mapping "mapping"

theorem Kind.named_iff {k : Kind} {word : String} : k.Named word ↔ word = k.word := by
  constructor
  · intro h
    cases h <;> rfl
  · rintro rfl
    cases k <;> constructor

theorem Kind.word_injective {k k' : Kind} (h : k.word = k'.word) : k = k' := by
  revert h
  cases k <;> cases k' <;> decide

inductive Shape.OfKind {δ : Type} : Shape δ → Kind → Prop
  | null : OfKind .null .null
  | bool : OfKind .bool .bool
  | number : OfKind .number .number
  | string (text : String) : OfKind (.string text) .string
  | sequence (items : List δ) : OfKind (.sequence items) .sequence
  | mapping (entries : List (String × δ)) : OfKind (.mapping entries) .mapping

namespace Document

variable {δ : Type} [Document δ]

theorem ofKind_kind (d : δ) : (shape d).OfKind (kind d) := by
  rw [kind]
  cases shape d <;> constructor

/-- The entries of a mapping whose keys are strings. A node that is no mapping has none. -/
def members (d : δ) : List (String × δ) := (entries? d).getD []

def elements (d : δ) : List δ := (items? d).getD []

theorem members_eq {d : δ} {entries : List (String × δ)} (h : entries? d = some entries) :
    members d = entries := by
  rw [members, h, Option.getD_some]

theorem elements_eq {d : δ} {items : List δ} (h : items? d = some items) : elements d = items := by
  rw [elements, h, Option.getD_some]

theorem entries?_of_mem_members {d : δ} {e : String × δ} (h : e ∈ members d) :
    ∃ entries, entries? d = some entries ∧ e ∈ entries := by
  rw [members] at h
  cases hentries : entries? d with
  | none =>
    rw [hentries] at h
    cases h
  | some entries =>
    rw [hentries] at h
    exact ⟨entries, rfl, h⟩

theorem size_of_members {d : δ} : ∀ e ∈ members d, size e.2 < size d := by
  intro e he
  obtain ⟨entries, hentries, hmem⟩ := entries?_of_mem_members he
  exact size_of_entries? hentries e hmem

theorem mem_members_of_present? {d v : δ} {key : String} (h : present? d key = some v) :
    (key, v) ∈ members d := by
  obtain ⟨entries, hentries, hfind⟩ := Option.bind_eq_some_iff.mp (Option.filter_eq_some_iff.mp h).1
  obtain ⟨⟨name, v'⟩, he, rfl⟩ := Option.map_eq_some_iff.mp hfind
  have hname : name = key := by simpa using List.find?_some he
  rw [members_eq hentries, ← hname]
  exact List.mem_of_find?_eq_some he

/-- The keys and indices of the path lead from the root to the node. -/
inductive Leads (root : δ) : Path → δ → Prop
  | here : Leads root [] root
  | key {path : Path} {node child : δ} {name : String} :
    Leads root path node → (name, child) ∈ members node → Leads root (path.key name) child
  | index {path : Path} {node child : δ} {i : Nat} :
    Leads root path node → (elements node)[i]? = some child → Leads root (path.index i) child

end Document

namespace Path

/-- Keys are written after dots and indices in brackets, and the root is the document. -/
inductive Spells : Path → String → Prop
  | root : Spells [] "document"
  | first (name : String) : Spells [.key name] name
  | key {path : Path} {text : String} (name : String) :
    path ≠ [] → Spells path text → Spells (path.key name) (text ++ "." ++ name)
  | index {path : Path} {text : String} (i : Nat) :
    path ≠ [] → Spells path text → Spells (path.index i) (text ++ "[" ++ toString i ++ "]")

theorem spell_concat {path : Path} (h : path ≠ []) (step : Step) :
    spell (path ++ [step]) = path.spell ++ step.tail := by
  cases path with
  | nil => exact absurd rfl h
  | cons first path =>
    rw [List.cons_append, spell, spell, List.foldl_append, List.foldl_cons, List.foldl_nil]

theorem ne_nil_of_key (path : Path) (name : String) : path.key name ≠ [] :=
  List.concat_ne_nil _ _

theorem ne_nil_of_index (path : Path) (i : Nat) : path.index i ≠ [] := List.concat_ne_nil _ _

end Path

namespace Manifest

open Document

variable {δ α : Type} [Document δ]

/-- What is demanded of a node. The last three demand that a string is read without an error; of
other nodes they demand nothing. -/
inductive Demand
  | kind (expected : Kind)
  | pair
  | pinSpec
  | pinBinding
  | target
  deriving DecidableEq, Repr

structure Site (δ : Type) where
  node : δ
  path : Path
  demand : Demand

def failure? : Except Fault α → Option Fault
  | .ok _ => none
  | .error f => some f

@[simp] theorem failure?_ok (a : α) : failure? (.ok a) = none := rfl

@[simp] theorem failure?_error (f : Fault) : failure? (.error f : Except Fault α) = some f := rfl

theorem failure?_eq_some_iff {r : Except Fault α} {f : Fault} :
    failure? r = some f ↔ r = .error f := by
  cases r <;> simp

/-- The fault of a site whose demand is not met. -/
def Site.fault? (s : Site δ) : Option Fault :=
  match s.demand with
  | .kind expected =>
    if kind s.node = expected then none
    else some ⟨.wrongKind expected s.path (kind s.node), none⟩
  | .pair =>
    if (items? s.node).map List.length = some 2 then none
    else some ⟨.notAPair (describe s.node), none⟩
  | .pinSpec => (string? s.node).bind fun text => failure? (Pin.ofSpec text)
  | .pinBinding => (string? s.node).bind fun text => failure? (PinBinding.ofText text)
  | .target => (string? s.node).bind fun text => failure? (BindingTarget.ofText text)

theorem Site.fault?_kind (d : δ) (path : Path) (expected : Kind) :
    Site.fault? ⟨d, path, .kind expected⟩ =
      if kind d = expected then none else some ⟨.wrongKind expected path (kind d), none⟩ := rfl

theorem Site.fault?_pair (d : δ) (path : Path) :
    Site.fault? ⟨d, path, .pair⟩ =
      if (items? d).map List.length = some 2 then none
      else some ⟨.notAPair (describe d), none⟩ := rfl

section Sites

/-- The sites of the section under a key, which is not there when it is null. -/
def sectionSites (d : δ) (path : Path) (key : String) (expected : Kind)
    (inner : δ → Path → List (Site δ)) : List (Site δ) :=
  match present? d key with
  | none => []
  | some part => ⟨part, path.key key, .kind expected⟩ :: inner part (path.key key)

def memberSites (inner : δ → Path → List (Site δ)) (d : δ) (path : Path) : List (Site δ) :=
  (members d).flatMap fun e => inner e.2 (path.key e.1)

def elementSites (inner : δ → Path → List (Site δ)) (d : δ) (path : Path) : List (Site δ) :=
  (elements d).zipIdx.flatMap fun item => inner item.1 (path.index item.2)

/-- A pin is a string first, and then a text. -/
def pinSites (text : Demand) (d : δ) (path : Path) : List (Site δ) :=
  [⟨d, path, .kind .string⟩, ⟨d, path, text⟩]

def interfaceSites (text : Demand) (d : δ) (path : Path) : List (Site δ) :=
  if isNull d then [] else ⟨d, path, .kind .mapping⟩ :: memberSites (pinSites text) d path

/-- Both sides of a binding are strings before either text is read. -/
def bindingSites (d : δ) (path : Path) : List (Site δ) :=
  ⟨d, path, .pair⟩ ::
    match elements d with
    | [left, right] =>
      [⟨left, path.index 0, .kind .string⟩, ⟨right, path.index 1, .kind .string⟩,
        ⟨left, path.index 0, .target⟩, ⟨right, path.index 1, .target⟩]
    | _ => []

def typeSites (d : δ) (path : Path) : List (Site δ) :=
  sectionSites d path "type" .string fun _ _ => []

def configurationSites (d : δ) (path : Path) : List (Site δ) :=
  sectionSites d path "configuration" .mapping fun _ _ => []

def interfacesSites (text : Demand) (d : δ) (path : Path) : List (Site δ) :=
  sectionSites d path "interfaces" .mapping (memberSites (interfaceSites text))

def requiredSites (d : δ) (path : Path) : List (Site δ) :=
  sectionSites d path "required" .sequence fun _ _ => []

def bindingsSites (d : δ) (path : Path) : List (Site δ) :=
  sectionSites d path "bindings" .sequence (elementSites bindingSites)

def leafSites (d : δ) (path : Path) : List (Site δ) :=
  typeSites d path ++ configurationSites d path ++ interfacesSites .pinSpec d path ++
    requiredSites d path

mutual

def componentSites (d : δ) (path : Path) : List (Site δ) :=
  if isNull d then []
  else if (present? d "components").isSome then compositeSites d path
  else ⟨d, path, .kind .mapping⟩ :: leafSites d path
termination_by 2 * size d + 2

def compositeSites (d : δ) (path : Path) : List (Site δ) :=
  ⟨d, path, .kind .mapping⟩ ::
    (typeSites d path ++ configurationSites d path ++ componentsSites d path ++
      interfacesSites .pinBinding d path ++ bindingsSites d path)
termination_by 2 * size d + 1

def componentsSites (d : δ) (path : Path) : List (Site δ) :=
  match _h : present? d "components" with
  | none => []
  | some part =>
    ⟨part, path.key "components", .kind .mapping⟩ ::
      (members part).attach.flatMap fun e =>
        componentSites e.1.2 ((path.key "components").key e.1.1)
termination_by 2 * size d
decreasing_by
  have := size_of_present? _h
  have := size_of_members _ e.2
  omega

end

/-- The sites of a document, in the order of decoding. -/
def sites (d : δ) : List (Site δ) :=
  if isNull d then []
  else ⟨d, .root, .kind .mapping⟩ ::
    match present? d "application" with
    | none => []
    | some application => compositeSites application (Path.root.key "application")

theorem componentsSites_eq (d : δ) (path : Path) :
    componentsSites d path =
      sectionSites d path "components" .mapping (memberSites componentSites) := by
  rw [componentsSites, sectionSites]
  split
  · rename_i hpart
    rw [hpart]
  · rename_i part hpart
    have hmembers := List.flatMap_map (l := (members part).attach) (f := Subtype.val)
      (g := fun e => componentSites e.2 ((path.key "components").key e.1))
    rw [List.attach_map_subtype_val] at hmembers
    rw [hpart]
    exact congrArg _ hmembers.symm

end Sites

section Paths

variable {root : δ}

/-- The path leads to the node and is spelled like a path below the root. -/
structure StandsAt (root node : δ) (path : Path) : Prop where
  leads : Leads root path node
  spells : path.Spells path.spell
  ne_nil : path ≠ []

namespace StandsAt

variable {node child : δ} {path : Path}

theorem key (h : StandsAt root node path) {name : String} (hchild : (name, child) ∈ members node) :
    StandsAt root child (path.key name) where
  leads := h.leads.key hchild
  spells := by
    rw [Path.key, Path.spell_concat h.ne_nil, Step.tail, ← String.append_assoc]
    exact .key name h.ne_nil h.spells
  ne_nil := path.ne_nil_of_key name

theorem index (h : StandsAt root node path) {i : Nat} (hchild : (elements node)[i]? = some child) :
    StandsAt root child (path.index i) where
  leads := h.leads.index hchild
  spells := by
    rw [Path.index, Path.spell_concat h.ne_nil, Step.tail, ← String.append_assoc,
      ← String.append_assoc]
    exact .index i h.ne_nil h.spells
  ne_nil := path.ne_nil_of_index i

end StandsAt

/-- Wherever the node stands under the root, the sites that are listed for it stand there too. -/
def Rooted (root : δ) (inner : δ → Path → List (Site δ)) (node : δ) : Prop :=
  ∀ path, StandsAt root node path → ∀ s ∈ inner node path, StandsAt root s.node s.path

theorem rooted_nil (node : δ) : Rooted root (fun _ _ => []) node := fun _ _ _ hs => by cases hs

theorem rooted_cons {inner : δ → Path → List (Site δ)} {demand : Demand} {node : δ}
    (h : Rooted root inner node) :
    Rooted root (fun d path => ⟨d, path, demand⟩ :: inner d path) node := by
  intro path hnode s hs
  rcases List.mem_cons.mp hs with rfl | hs
  · exact hnode
  · exact h path hnode s hs

theorem rooted_append {inner inner' : δ → Path → List (Site δ)} {node : δ}
    (h : Rooted root inner node) (h' : Rooted root inner' node) :
    Rooted root (fun d path => inner d path ++ inner' d path) node := by
  intro path hnode s hs
  rcases List.mem_append.mp hs with hs | hs
  · exact h path hnode s hs
  · exact h' path hnode s hs

theorem rooted_section {key : String} {expected : Kind} {inner : δ → Path → List (Site δ)}
    {node : δ} (h : ∀ part, present? node key = some part → Rooted root inner part) :
    Rooted root (fun d path => sectionSites d path key expected inner) node := by
  intro path hnode s hs
  dsimp only at hs
  rw [sectionSites] at hs
  split at hs
  · cases hs
  · rename_i part hpart
    have hstands := hnode.key (mem_members_of_present? hpart)
    exact rooted_cons (h part hpart) _ hstands s hs

theorem rooted_members {inner : δ → Path → List (Site δ)} {node : δ}
    (h : ∀ e ∈ members node, Rooted root inner e.2) : Rooted root (memberSites inner) node := by
  intro path hnode s hs
  obtain ⟨e, he, hs⟩ := List.mem_flatMap.mp hs
  exact h e he _ (hnode.key he) s hs

theorem rooted_elements {inner : δ → Path → List (Site δ)} {node : δ}
    (h : ∀ item, Rooted root inner item) : Rooted root (elementSites inner) node := by
  intro path hnode s hs
  obtain ⟨⟨item, i⟩, hitem, hs⟩ := List.mem_flatMap.mp hs
  exact h item _ (hnode.index (List.mk_mem_zipIdx_iff_getElem?.mp hitem)) s hs

theorem rooted_interface (text : Demand) (node : δ) : Rooted root (interfaceSites text) node := by
  have hpin : ∀ pin : δ, Rooted root (pinSites text) pin := fun pin =>
    rooted_cons (rooted_cons (rooted_nil pin))
  intro path hnode s hs
  rw [interfaceSites] at hs
  split at hs
  · cases hs
  · exact rooted_cons (rooted_members fun e _ => hpin e.2) path hnode s hs

theorem rooted_binding (node : δ) : Rooted root bindingSites node := by
  intro path hnode s hs
  rw [bindingSites] at hs
  rcases List.mem_cons.mp hs with rfl | hs
  · exact hnode
  · split at hs
    · rename_i left right hitems
      have hleft : StandsAt root left (path.index 0) := hnode.index (by rw [hitems]; rfl)
      have hright : StandsAt root right (path.index 1) := hnode.index (by rw [hitems]; rfl)
      simp only [List.mem_cons, List.not_mem_nil, or_false] at hs
      rcases hs with rfl | rfl | rfl | rfl
      · exact hleft
      · exact hright
      · exact hleft
      · exact hright
    · cases hs

theorem rooted_interfaces (text : Demand) (node : δ) : Rooted root (interfacesSites text) node :=
  rooted_section fun _ _ => rooted_members fun e _ => rooted_interface text e.2

theorem rooted_leaf (node : δ) : Rooted root leafSites node := by
  refine rooted_append (rooted_append (rooted_append ?_ ?_) (rooted_interfaces _ node)) ?_
  all_goals exact rooted_section fun part _ => rooted_nil part

mutual

theorem rooted_component (node : δ) : Rooted root componentSites node := by
  intro path hnode s hs
  rw [componentSites] at hs
  split at hs
  · cases hs
  · split at hs
    · exact rooted_composite node path hnode s hs
    · exact rooted_cons (rooted_leaf node) path hnode s hs
termination_by 2 * size node + 2

theorem rooted_composite (node : δ) : Rooted root compositeSites node := by
  intro path hnode s hs
  rw [compositeSites] at hs
  refine rooted_cons (rooted_append (rooted_append (rooted_append (rooted_append ?_ ?_)
    (rooted_components node)) (rooted_interfaces _ node)) ?_) path hnode s hs
  · exact rooted_section fun part _ => rooted_nil part
  · exact rooted_section fun part _ => rooted_nil part
  · exact rooted_section fun _ _ => rooted_elements rooted_binding
termination_by 2 * size node + 1

theorem rooted_components (node : δ) : Rooted root componentsSites node := by
  intro path hnode s hs
  rw [componentsSites_eq] at hs
  refine rooted_section (fun part hpart => rooted_members fun e he => ?_) path hnode s hs
  have := size_of_present? hpart
  have := size_of_members e he
  exact rooted_component e.2
termination_by 2 * size node

end

theorem leads_of_mem_sites {d : δ} {s : Site δ} (h : s ∈ sites d) :
    Leads d s.path s.node ∧ s.path.Spells s.path.spell := by
  rw [sites] at h
  split at h
  · cases h
  · rcases List.mem_cons.mp h with rfl | h
    · exact ⟨.here, .root⟩
    · split at h
      · cases h
      · rename_i application happlication
        have hstands : StandsAt d application (Path.root.key "application") :=
          ⟨Leads.here.key (mem_members_of_present? happlication), .first _, Path.ne_nil_of_key _ _⟩
        have hs := rooted_composite application _ hstands s h
        exact ⟨hs.leads, hs.spells⟩

end Paths

end Manifest

end ComponentGraph
