import ComponentGraph.Proofs.Component
import ComponentGraph.Proofs.NameMap

/-!
# Maps filled in another order

Two components can be built from the same parts in two orders: the entries of any map in them, at
any depth, are inserted in one order here and in another one there. They are the same component.
-/

set_option autoImplicit false

namespace ComponentGraph

namespace SortedEntries

variable {α : Type} {R : α → α → Prop} {m m' : NameMap α}

/-- The maps of two lists of entries that have the same names in any order, none of them twice, and
related values under each name. -/
inductive Refilled (R : α → α → Prop) : NameMap α → NameMap α → Prop
  | intro {entries entries' : List (String × α)} (distinct : (entries.map Prod.fst).Nodup)
    (names : (entries.map Prod.fst).Perm (entries'.map Prod.fst))
    (values : ∀ name v v', (name, v) ∈ entries → (name, v') ∈ entries' → R v v') :
    Refilled R (ofList entries) (ofList entries')

theorem refilled_empty : Refilled R ∅ ∅ :=
  @Refilled.intro _ _ [] [] List.nodup_nil .nil nofun

theorem Refilled.rel_get? (h : m.Refilled R m') (name : String) :
    Option.Rel R (m.get? name) (m'.get? name) := by
  cases h with
  | @intro entries entries' distinct names values =>
    have distinct' : (entries'.map Prod.fst).Nodup := names.nodup_iff.mp distinct
    have hpresent : (ofList entries).contains name = true ↔
        (ofList entries').contains name = true :=
      contains_ofList_iff.trans (names.mem_iff.trans contains_ofList_iff.symm)
    rw [contains, contains] at hpresent
    cases hv : (ofList entries).get? name with
    | none =>
      cases hv' : (ofList entries').get? name with
      | none => exact .none
      | some v' => simp [hv, hv'] at hpresent
    | some v =>
      cases hv' : (ofList entries').get? name with
      | none => simp [hv, hv'] at hpresent
      | some v' =>
        have hmem := (get?_ofList_iff distinct).mp hv
        have hmem' := (get?_ofList_iff distinct').mp hv'
        exact .some (values name v v' hmem hmem')

theorem Refilled.eq_of_get? (h : m.Refilled R m')
    (hR : ∀ name v v', m.get? name = some v → R v v' → v = v') : m = m' := by
  apply ext
  intro name
  have hrel := h.rel_get? name
  generalize hv : m.get? name = v, m'.get? name = v' at hrel
  cases hrel with
  | none => rfl
  | some hvv' => rw [hR name _ _ hv hvv']

theorem Refilled.eq (h : m.Refilled R m') (hR : ∀ {v v'}, R v v' → v = v') : m = m' :=
  h.eq_of_get? fun _ _ _ _ => hR

end SortedEntries

inductive DataType.Refilled : DataType → DataType → Prop
  | refl (t : DataType) : DataType.Refilled t t
  | list {t t' : DataType} : t.Refilled t' → DataType.Refilled (.list t) (.list t')
  | map {k v k' v' : DataType} : k.Refilled k' → v.Refilled v' →
    DataType.Refilled (.map k v) (.map k' v')
  | record {fields fields' : Fields} : fields.Refilled DataType.Refilled fields' →
    DataType.Refilled (.record fields) (.record fields')

theorem DataType.Refilled.eq {t t' : DataType} (h : t.Refilled t') : t = t' := by
  match h with
  | .refl _ => rfl
  | .list h => rw [h.eq]
  | .map hk hv => rw [hk.eq, hv.eq]
  | .record h =>
    rw [h.eq_of_get?]
    intro name v v' hv hvv'
    have := SortedEntries.sizeOf_lt_of_get? hv
    exact hvv'.eq
termination_by sizeOf t

inductive PinKind.Refilled : PinKind → PinKind → Prop
  | signal {t t' : DataType} : t.Refilled t' → PinKind.Refilled (.signal t) (.signal t')
  | configuration {t t' : DataType} : t.Refilled t' →
    PinKind.Refilled (.configuration t) (.configuration t')
  | command {a p r a' p' r' : Fields} : a.Refilled DataType.Refilled a' →
    p.Refilled DataType.Refilled p' → r.Refilled DataType.Refilled r' →
    PinKind.Refilled (.command a p r) (.command a' p' r')

theorem PinKind.Refilled.eq {k k' : PinKind} (h : k.Refilled k') : k = k' := by
  cases h with
  | signal h | configuration h => rw [h.eq]
  | command ha hp hr =>
    rw [ha.eq DataType.Refilled.eq, hp.eq DataType.Refilled.eq, hr.eq DataType.Refilled.eq]

def Pin.Refilled (p p' : Pin) : Prop := p.direction = p'.direction ∧ p.kind.Refilled p'.kind

theorem Pin.Refilled.eq {p p' : Pin} (h : p.Refilled p') : p = p' :=
  congrArg₂ Pin.mk h.1 h.2.eq

def LeafInterface.Refilled (i i' : LeafInterface) : Prop :=
  i.pins.Refilled Pin.Refilled i'.pins ∧ i.required = i'.required

theorem LeafInterface.Refilled.eq {i i' : LeafInterface} (h : i.Refilled i') : i = i' :=
  congrArg₂ LeafInterface.mk (h.1.eq Pin.Refilled.eq) h.2

def CompositeInterface.Refilled (i i' : CompositeInterface) : Prop := i.pins.Refilled Eq i'.pins

theorem CompositeInterface.Refilled.eq {i i' : CompositeInterface} (h : i.Refilled i') : i = i' :=
  congrArg CompositeInterface.mk (SortedEntries.Refilled.eq h id)

/-- The configuration, the interfaces with their pins and the children are filled in another
order. Bindings keep theirs. -/
inductive Component.Refilled : Component → Component → Prop
  | leaf {a b : Leaf} : a.type = b.type → a.configuration.Refilled Eq b.configuration →
    a.interfaces.Refilled LeafInterface.Refilled b.interfaces →
    Component.Refilled (.leaf a) (.leaf b)
  | composite {a b : Composite} : a.type = b.type →
    a.configuration.Refilled Eq b.configuration →
    a.components.Refilled Component.Refilled b.components →
    a.interfaces.Refilled CompositeInterface.Refilled b.interfaces →
    a.bindings = b.bindings → Component.Refilled (.composite a) (.composite b)

theorem Component.Refilled.eq {c d : Component} (h : c.Refilled d) : c = d := by
  match h with
  | @leaf a b htype hconfiguration hinterfaces =>
    cases a
    cases b
    dsimp only at *
    rw [htype, hconfiguration.eq id, hinterfaces.eq LeafInterface.Refilled.eq]
  | @composite a b htype hconfiguration hchildren hinterfaces hbindings =>
    have hchildren : a.components = b.components := by
      apply hchildren.eq_of_get?
      intro name child child' hchild h
      have := Composite.sizeOf_child_lt hchild
      exact h.eq
    cases a
    cases b
    dsimp only at *
    rw [htype, hconfiguration.eq id, hchildren, hinterfaces.eq CompositeInterface.Refilled.eq,
      hbindings]
termination_by sizeOf c

end ComponentGraph
