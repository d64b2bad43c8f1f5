import Mathlib.Logic.Relation
import OpCatalog.Proofs.CatalogText
import OpCatalog.Proofs.RecordEdits

/-!
# Catalogues that are edited

A catalogue that a reading keeps is read back from its JSON value also after the value has been
edited: the members of its objects may be reordered, members with other names may be added, whatever
their values, and what holds its default may be left out. The order of lists is not open to edits,
since it means something.
-/
namespace OpCatalog

open Json (InItem Latitude)

theorem Json.Respelled.doubleBy?_eq_some {r : Reading} {j j' : Json} {x : Double}
    (h : j.Respelled r j') (hread : j.doubleBy? r = some x) : j'.doubleBy? r = some x :=
  h.doubleBy?_eq.trans hread

/-! ## What may be edited -/

/-- Each record has its latitude. In an argument, a double may also be spelled in another way, and
is left out if it is zero. -/
def Argument.latitude (r : Reading) : Latitude where
  names := fieldNames
  adds := fun _ => True
  defaults := fun name v =>
    name ∈ ["default", "min", "max"] ∧ v.doubleBy? r = some .zero ∨
      name = "enum_type_name" ∧ v = .null
  changes := fun name v v' => name ∈ ["default", "min", "max"] ∧ v.Respelled r v'

def Operation.latitude (r : Reading) : Latitude where
  names := fieldNames
  adds := fun _ => True
  defaults := fun name v =>
    name = "description" ∧ v = .str "" ∨ name = "arguments" ∧ v = .arr []
  changes := fun name v v' => name = "arguments" ∧ InItem (Argument.latitude r).Edit v v'

def EnumMember.latitude : Latitude where
  names := fieldNames
  adds := fun _ => True

def EnumType.latitude : Latitude where
  names := fieldNames
  adds := fun _ => True
  defaults := fun name v => name = "values" ∧ v = .arr []
  changes := fun name v v' => name = "values" ∧ InItem EnumMember.latitude.Edit v v'

def Catalog.latitude (r : Reading) : Latitude where
  names := fieldNames
  adds := fun _ => True
  defaults := fun name v => name ∈ ["operations", "enums"] ∧ v = .arr []
  changes := fun name v v' =>
    name = "operations" ∧ InItem (Operation.latitude r).Edit v v' ∨
      name = "enums" ∧ InItem EnumType.latitude.Edit v v'

/-! ## Records -/

variable {r : Reading} {j j' : Json}

theorem Argument.ofJsonBy?_of_edit {a : Argument} (h : (latitude r).Edit j j')
    (hread : ofJsonBy? r j = some a) : ofJsonBy? r j' = some a := by
  simp only [ofJsonBy?, Option.bind_eq_bind, Option.bind_eq_some_iff, Option.some.injEq] at hread ⊢
  obtain ⟨fields, hfields, _, hname, _, hkind, _, hflags, _, hpriority, _, hdefault, _, hmin, _,
    hmax, _, henum, rfl⟩ := hread
  obtain ⟨fields', hfields', hfollows⟩ := h.exists_fields (by simp) hfields
  have hdouble : ∀ {name : String} {v v' : Json} {x : Double}, (latitude r).changes name v v' →
      v.doubleBy? r = some x → v'.doubleBy? r = some x :=
    fun hchange => hchange.2.doubleBy?_eq_some
  refine ⟨fields', hfields', _, hfollows.required ?_ ?_ ?_ hname,
    _, hfollows.required ?_ ?_ ?_ hkind, _, hfollows.required ?_ ?_ ?_ hflags,
    _, hfollows.required ?_ ?_ ?_ hpriority,
    _, hfollows.defaulted ?_ ?_ (fun _ _ => hdouble) hdefault,
    _, hfollows.defaulted ?_ ?_ (fun _ _ => hdouble) hmin,
    _, hfollows.defaulted ?_ ?_ (fun _ _ => hdouble) hmax,
    _, hfollows.defaulted ?_ ?_ ?_ henum, rfl⟩
  -- What is left out is read as the default, and no other field is open to changes.
  all_goals simp [latitude, fieldNames, Json.nullable?]

theorem Operation.ofJsonBy?_of_edit {op : Operation} (h : (latitude r).Edit j j')
    (hread : ofJsonBy? r j = some op) : ofJsonBy? r j' = some op := by
  simp only [ofJsonBy?, Option.bind_eq_bind, Option.bind_eq_some_iff, Option.some.injEq] at hread ⊢
  obtain ⟨fields, hfields, _, hname, _, hdescription, _, hcategory, _, harguments, rfl⟩ := hread
  obtain ⟨fields', hfields', hfollows⟩ := h.exists_fields (by simp) hfields
  have hlist : ∀ {v v' : Json} {args : List Argument}, (latitude r).changes "arguments" v v' →
      v.list? (Argument.ofJsonBy? r) = some args → v'.list? (Argument.ofJsonBy? r) = some args :=
    fun hchange => hchange.2.list? fun _ _ _ => Argument.ofJsonBy?_of_edit
  refine ⟨fields', hfields', _, hfollows.required ?_ ?_ ?_ hname,
    _, hfollows.defaulted ?_ ?_ ?_ hdescription,
    _, hfollows.required ?_ ?_ ?_ hcategory,
    _, hfollows.defaulted ?_ ?_ (fun _ _ => hlist) harguments, rfl⟩
  all_goals simp [latitude, fieldNames, Json.string?]

theorem EnumMember.ofJson?_of_edit {m : EnumMember} (h : latitude.Edit j j')
    (hread : ofJson? j = some m) : ofJson? j' = some m := by
  simp only [ofJson?, Option.bind_eq_bind, Option.bind_eq_some_iff, Option.some.injEq] at hread ⊢
  obtain ⟨fields, hfields, _, hname, _, hnick, _, hvalue, rfl⟩ := hread
  obtain ⟨fields', hfields', hfollows⟩ := h.exists_fields (by simp) hfields
  refine ⟨fields', hfields', _, hfollows.required (by decide) ?_ ?_ hname,
    _, hfollows.required (by decide) ?_ ?_ hnick, _, hfollows.required (by decide) ?_ ?_ hvalue,
    rfl⟩
  all_goals simp [latitude]

theorem EnumType.ofJson?_of_edit {e : EnumType} (h : latitude.Edit j j')
    (hread : ofJson? j = some e) : ofJson? j' = some e := by
  simp only [ofJson?, Option.bind_eq_bind, Option.bind_eq_some_iff, Option.some.injEq] at hread ⊢
  obtain ⟨fields, hfields, _, hname, _, hmembers, rfl⟩ := hread
  obtain ⟨fields', hfields', hfollows⟩ := h.exists_fields (by simp) hfields
  have hlist : ∀ {v v' : Json} {ms : List EnumMember}, latitude.changes "values" v v' →
      v.list? EnumMember.ofJson? = some ms → v'.list? EnumMember.ofJson? = some ms :=
    fun hchange => hchange.2.list? fun _ _ _ => EnumMember.ofJson?_of_edit
  refine ⟨fields', hfields', _, hfollows.required (by decide) ?_ ?_ hname,
    _, hfollows.defaulted (by decide) ?_ (fun _ _ => hlist) hmembers, rfl⟩
  all_goals simp [latitude]

/-! ## Documents -/

namespace Catalog

theorem ofJsonBy?_of_edit {c : Catalog} (h : (latitude r).Edit j j')
    (hread : ofJsonBy? r j = some c) : ofJsonBy? r j' = some c := by
  simp only [ofJsonBy?, Option.bind_eq_bind, Option.bind_eq_some_iff, Option.some.injEq] at hread ⊢
  obtain ⟨fields, hfields, _, hoperations, _, henums, rfl⟩ := hread
  obtain ⟨fields', hfields', hfollows⟩ := h.exists_fields (by simp) hfields
  have hoperations' : ∀ {v v' : Json} {ops : List Operation},
      (latitude r).changes "operations" v v' → v.list? (Operation.ofJsonBy? r) = some ops →
        v'.list? (Operation.ofJsonBy? r) = some ops := by
    intro v v' ops hchange
    have hitem : InItem (Operation.latitude r).Edit v v' := by simpa [latitude] using hchange
    exact hitem.list? fun _ _ _ => Operation.ofJsonBy?_of_edit
  have henums' : ∀ {v v' : Json} {es : List EnumType}, (latitude r).changes "enums" v v' →
      v.list? EnumType.ofJson? = some es → v'.list? EnumType.ofJson? = some es := by
    intro v v' es hchange
    have hitem : InItem EnumType.latitude.Edit v v' := by simpa [latitude] using hchange
    exact hitem.list? fun _ _ _ => EnumType.ofJson?_of_edit
  refine ⟨fields', hfields',
    _, hfollows.defaulted ?_ ?_ (fun _ _ => hoperations') hoperations,
    _, hfollows.defaulted ?_ ?_ (fun _ _ => henums') henums, rfl⟩
  all_goals simp [latitude, fieldNames]

/-- Any number of edits of the value of a catalogue. -/
theorem ofJsonBy?_of_edits {c : Catalog} (hc : c.KeptBy r)
    (h : Relation.ReflTransGen (latitude r).Edit c.toJson j) : ofJsonBy? r j = some c := by
  induction h with
  | refl => rw [ofJsonBy?_toJson, again?_eq_self_iff.2 hc]
  | tail _ hedit ih => exact ofJsonBy?_of_edit hedit ih

end Catalog

end OpCatalog
