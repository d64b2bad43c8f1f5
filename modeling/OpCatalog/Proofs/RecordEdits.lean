import Mathlib.Data.List.Nodup
import OpCatalog.Json.Record

/-!
# Edits of records

An object that a record is read from can be changed in several ways, and what is read from it need
not change with it: its members may come in another order, some may be added or left out, and the
value of one may be changed itself. A `Latitude` says which of these changes there are. A reader of
fields does not see an edit if each field is read from the edited value as from the old one.
-/
namespace OpCatalog.Json

abbrev Members := List (String × Json)

/-- What may be changed about an object that a record is read from. -/
structure Latitude where
  /-- The members that are fields. -/
  names : List String
  /-- The values of members that may be added under other names. -/
  adds : Json → Prop := fun _ => False
  /-- The values of fields with which they may be left out. -/
  defaults : String → Json → Prop := fun _ _ => False
  /-- The changes to the value of a member. -/
  changes : String → Json → Json → Prop := fun _ _ _ => False

namespace Latitude

/-- One edit of the members of an object. -/
inductive EditMembers (r : Latitude) : Members → Members → Prop
  | reorder {ms ms' : Members} : ms.Perm ms' → EditMembers r ms ms'
  | insert {before after : Members} {name : String} {v : Json} :
    name ∉ r.names → r.adds v → EditMembers r (before ++ after) (before ++ (name, v) :: after)
  | remove {before after : Members} {name : String} {v : Json} :
    r.defaults name v → EditMembers r (before ++ (name, v) :: after) (before ++ after)
  | replace {before after : Members} {name : String} {v v' : Json} :
    r.changes name v v' →
      EditMembers r (before ++ (name, v) :: after) (before ++ (name, v') :: after)

inductive Edit (r : Latitude) : Json → Json → Prop
  | obj {ms ms' : Members} : r.EditMembers ms ms' → Edit r (.obj ms) (.obj ms')

/-- What an edit may do to the value of one field. -/
inductive Keeps (r : Latitude) (name : String) : Option Json → Option Json → Prop
  | same (value : Option Json) : Keeps r name value value
  | omitted {v : Json} : r.defaults name v → Keeps r name (some v) none
  | changed {v v' : Json} : r.changes name v v' → Keeps r name (some v) (some v')

/-- The fields before and after an edit. -/
def Follows (r : Latitude) (fields fields' : Fields) : Prop :=
  ∀ name ∈ r.names, r.Keeps name (fields name) (fields' name)

end Latitude

variable {r : Latitude} {names : List String} {extra : Extra} {before after ms ms' : Members}
  {name n : String} {v : Json} {fields fields' : Fields} {j j' : Json}

/-! ## Looking up -/

/-- No field occurs twice. -/
def KnownOnce (names : List String) (ms : Members) : Prop :=
  ((ms.map (·.1)).filter (names.contains ·)).Nodup

theorem fields?_obj_eq_some_iff :
    fields? names extra (.obj ms) = some fields ↔
      (KnownOnce names ms ∧ (extra = .refused → ∀ m ∈ ms, m.1 ∈ names)) ∧
        (fun name => ms.lookup name) = fields := by
  have hlength : ((ms.map (·.1)).filter (names.contains ·)).length = ms.length ↔
      ∀ m ∈ ms, m.1 ∈ names := by
    have hmap : (ms.map (·.1)).length = ms.length := List.length_map _
    rw [← hmap, List.length_filter_eq_length_iff]
    simp
  rw [fields?, objectFields?, Option.ite_none_right_eq_some, Option.some.injEq, hlength, KnownOnce]

theorem lookup_middle_of_ne (h : n ≠ name) :
    (before ++ (name, v) :: after).lookup n = (before ++ after).lookup n := by
  rw [List.lookup_append, List.lookup_append, List.lookup_cons, beq_false_of_ne h]

/-- A field that stands between other members is none of them. -/
theorem KnownOnce.lookup_eq_none (h : KnownOnce names (before ++ (name, v) :: after))
    (hname : name ∈ names) : before.lookup name = none ∧ after.lookup name = none := by
  have hknown : names.contains name = true := List.contains_iff_mem.2 hname
  rw [KnownOnce, List.map_append, List.map_cons, List.filter_append,
    List.filter_cons_of_pos hknown] at h
  have hmiddle := List.nodup_middle.1 h
  rw [List.nodup_cons, List.mem_append, not_or] at hmiddle
  have hnone : ∀ ms : Members, name ∉ (ms.map (·.1)).filter (names.contains ·) →
      ms.lookup name = none := by
    intro ms hnot
    rw [List.lookup_eq_none_iff]
    intro m hm
    rw [bne_iff_ne]
    rintro rfl
    exact hnot (List.mem_filter.2 ⟨List.mem_map_of_mem hm, hknown⟩)
  exact ⟨hnone before hmiddle.1.1, hnone after hmiddle.1.2⟩

theorem KnownOnce.lookup_middle (h : KnownOnce names (before ++ (name, v) :: after))
    (hname : name ∈ names) : (before ++ (name, v) :: after).lookup name = some v := by
  rw [List.lookup_append, (h.lookup_eq_none hname).1, Option.none_or, List.lookup_cons_self]

theorem KnownOnce.lookup_eq_some_iff (h : KnownOnce names ms) (hname : name ∈ names) :
    ms.lookup name = some v ↔ (name, v) ∈ ms := by
  constructor
  · intro hlook
    obtain ⟨before, after, rfl, -⟩ := List.lookup_eq_some_iff.1 hlook
    simp
  · intro hmem
    obtain ⟨before, after, rfl⟩ := List.append_of_mem hmem
    exact h.lookup_middle hname

/-! ## One edit -/

namespace Latitude

theorem EditMembers.knownOnce (h : r.EditMembers ms ms') (hms : KnownOnce r.names ms) :
    KnownOnce r.names ms' := by
  cases h with
  | reorder hperm =>
    have hnames := (hperm.map (·.1)).filter (r.names.contains ·)
    exact hnames.nodup_iff.1 hms
  | insert hname _ =>
    have hknown : ¬r.names.contains _ = true := mt List.contains_iff_mem.1 hname
    rw [KnownOnce, List.map_append, List.map_cons, List.filter_append,
      List.filter_cons_of_neg hknown, ← List.filter_append, ← List.map_append]
    exact hms
  | @remove before after name v _ =>
    have hsub : (before ++ after).Sublist (before ++ (name, v) :: after) :=
      (List.sublist_cons_self _ after).append_left before
    exact hms.sublist ((hsub.map (·.1)).filter _)
  | replace _ =>
    rw [KnownOnce, List.map_append, List.map_cons] at hms ⊢
    exact hms

/-- Where a member comes from after an edit. -/
theorem EditMembers.mem (h : r.EditMembers ms ms') {m : String × Json} (hm : m ∈ ms') :
    m ∈ ms ∨ (m.1 ∉ r.names ∧ r.adds m.2) ∨ ∃ v, (m.1, v) ∈ ms ∧ r.changes m.1 v m.2 := by
  cases h with
  | reorder hperm => exact Or.inl (hperm.mem_iff.2 hm)
  | insert hname hv =>
    rcases List.mem_append.1 hm with hm | hm
    · exact Or.inl (List.mem_append_left _ hm)
    · rcases List.mem_cons.1 hm with rfl | hm
      · exact Or.inr (Or.inl ⟨hname, hv⟩)
      · exact Or.inl (List.mem_append_right _ hm)
  | remove _ =>
    rcases List.mem_append.1 hm with hm | hm
    · exact Or.inl (List.mem_append_left _ hm)
    · exact Or.inl (List.mem_append_right _ (List.mem_cons_of_mem _ hm))
  | replace hchange =>
    rcases List.mem_append.1 hm with hm | hm
    · exact Or.inl (List.mem_append_left _ hm)
    · rcases List.mem_cons.1 hm with rfl | hm
      · exact Or.inr (Or.inr ⟨_, List.mem_append_right _ List.mem_cons_self, hchange⟩)
      · exact Or.inl (List.mem_append_right _ (List.mem_cons_of_mem _ hm))

/-- The members stay known, unless some are added. -/
theorem EditMembers.names_mem (h : r.EditMembers ms ms') (hadds : ∀ v, ¬r.adds v)
    (hms : ∀ m ∈ ms, m.1 ∈ names) : ∀ m ∈ ms', m.1 ∈ names := by
  intro m hm
  obtain hm | ⟨-, hv⟩ | ⟨v, hv, -⟩ := h.mem hm
  · exact hms m hm
  · exact absurd hv (hadds _)
  · exact hms (m.1, v) hv

/-- What is so of all values stays so if it is so of those that are added or changed. -/
theorem EditMembers.forall_values (h : r.EditMembers ms ms') {P : Json → Prop}
    (hadds : ∀ v, r.adds v → P v) (hchanges : ∀ n v v', r.changes n v v' → P v → P v')
    (hms : ∀ m ∈ ms, P m.2) : ∀ m ∈ ms', P m.2 := by
  intro m hm
  obtain hm | ⟨-, hv⟩ | ⟨v, hv, hchange⟩ := h.mem hm
  · exact hms m hm
  · exact hadds _ hv
  · exact hchanges _ _ _ hchange (hms (m.1, v) hv)

theorem EditMembers.keeps (h : r.EditMembers ms ms') (hms : KnownOnce r.names ms)
    (hn : n ∈ r.names) : r.Keeps n (ms.lookup n) (ms'.lookup n) := by
  have hms' := h.knownOnce hms
  cases h with
  | reorder hperm =>
    have hsame : ms.lookup n = ms'.lookup n := by
      apply Option.ext
      intro v
      rw [hms.lookup_eq_some_iff hn, hms'.lookup_eq_some_iff hn, hperm.mem_iff]
    rw [hsame]
    exact Keeps.same _
  | @insert before after name v hname _ =>
    have hne : n ≠ name := by
      rintro rfl
      exact hname hn
    rw [lookup_middle_of_ne hne]
    exact Keeps.same _
  | @remove before after name v hdefaults =>
    by_cases heq : n = name
    · subst heq
      obtain ⟨hbefore, hafter⟩ := hms.lookup_eq_none hn
      rw [hms.lookup_middle hn, List.lookup_append, hbefore, hafter]
      exact Keeps.omitted hdefaults
    · rw [lookup_middle_of_ne heq]
      exact Keeps.same _
  | @replace before after name v v' hchange =>
    by_cases heq : n = name
    · subst heq
      rw [hms.lookup_middle hn, hms'.lookup_middle hn]
      exact Keeps.changed hchange
    · rw [lookup_middle_of_ne heq, lookup_middle_of_ne heq]
      exact Keeps.same _

/-- The fields can still be told apart after an edit. -/
theorem Edit.exists_fields (h : r.Edit j j') (hadds : extra = .refused → ∀ v, ¬r.adds v)
    (hfields : j.fields? r.names extra = some fields) :
    ∃ fields', j'.fields? r.names extra = some fields' ∧ r.Follows fields fields' := by
  cases h with
  | @obj ms ms' hedit =>
    obtain ⟨⟨honce, hknown⟩, rfl⟩ := fields?_obj_eq_some_iff.1 hfields
    have hknown' : extra = .refused → ∀ m ∈ ms', m.1 ∈ r.names :=
      fun hextra => hedit.names_mem (hadds hextra) (hknown hextra)
    exact ⟨_, fields?_obj_eq_some_iff.2 ⟨⟨hedit.knownOnce honce, hknown'⟩, rfl⟩,
      fun _ hn => hedit.keeps honce hn⟩

/-! ## Reading fields -/

variable {α : Type} {read : Json → Option α} {x value : α}

theorem Keeps.bind {o o' : Option Json} (h : r.Keeps n o o') (hkept : ∀ v, ¬r.defaults n v)
    (hchanges : ∀ v v', r.changes n v v' → read v = some x → read v' = some x)
    (hread : o.bind read = some x) : o'.bind read = some x := by
  cases h with
  | same => exact hread
  | omitted hdefaults => exact absurd hdefaults (hkept _)
  | changed hchange => exact hchanges _ _ hchange hread

/-- A required field is read as before if it is not left out and what may be changed about it does
not matter. -/
theorem Follows.required (h : r.Follows fields fields') (hn : n ∈ r.names)
    (hkept : ∀ v, ¬r.defaults n v)
    (hchanges : ∀ v v', r.changes n v v' → read v = some x → read v' = some x)
    (hread : fields.required n read = some x) : fields'.required n read = some x :=
  (h n hn).bind hkept hchanges hread

/-- A field with a default may also be left out where it has the default. -/
theorem Follows.defaulted (h : r.Follows fields fields') (hn : n ∈ r.names)
    (hdefault : ∀ v, r.defaults n v → read v = some value)
    (hchanges : ∀ v v', r.changes n v v' → read v = some x → read v' = some x)
    (hread : fields.defaulted n value read = some x) :
    fields'.defaulted n value read = some x := by
  have hkeeps := h n hn
  rw [Fields.defaulted] at hread ⊢
  generalize fields n = o at hkeeps hread
  generalize fields' n = o' at hkeeps ⊢
  cases hkeeps with
  | same => exact hread
  | omitted hdefaults => exact (hdefault _ hdefaults).symm.trans hread
  | changed hchange => exact hchanges _ _ hchange hread

end Latitude

/-! ## Lists and numbers -/

@[simp] theorem list?_nil {α : Type} (read : Json → Option α) :
    list? read (.arr []) = some [] := rfl

/-- One element of a list is changed. -/
inductive InItem (R : Json → Json → Prop) : Json → Json → Prop
  | mk {before after : List Json} {item item' : Json} :
    R item item' → InItem R (.arr (before ++ item :: after)) (.arr (before ++ item' :: after))

theorem InItem.list? {α : Type} {read : Json → Option α} {xs : List α} {R : Json → Json → Prop}
    (h : InItem R j j')
    (hR : ∀ item item' x, R item item' → read item = some x → read item' = some x)
    (hread : list? read j = some xs) : list? read j' = some xs := by
  cases h with
  | @mk before after item item' hitem =>
    simp only [Json.list?, List.mapM_append, List.mapM_cons, Option.bind_eq_bind,
      Option.bind_eq_some_iff, Option.pure_def, Option.some.injEq] at hread ⊢
    obtain ⟨xs, hbefore, _, ⟨x, hx, ys, hafter, rfl⟩, rfl⟩ := hread
    exact ⟨xs, hbefore, _, ⟨x, hR item item' x hitem hx, ys, hafter, rfl⟩, rfl⟩

/-- Another numeral that is read as the same double. -/
inductive Respelled (r : Reading) : Json → Json → Prop
  | num {n n' : Numeral} {x : Double} :
    r.double? n = some x → r.double? n' = some x → Respelled r (.num n) (.num n')

theorem Respelled.doubleBy?_eq {r : Reading} (h : Respelled r j j') :
    j'.doubleBy? r = j.doubleBy? r := by
  cases h with
  | num hread hread' => exact hread'.trans hread.symm

/-! ## Members that are refused -/

/-- An object with a member that is no field. -/
def HasStray (names : List String) : Json → Prop
  | .obj ms => ∃ m ∈ ms, m.1 ∉ names
  | _ => False

/-- An object with a list under the name, of which one element is such. -/
def AnyItem (name : String) (P : Json → Prop) : Json → Prop
  | .obj ms => ∃ items, (name, .arr items) ∈ ms ∧ ∃ item ∈ items, P item
  | _ => False

theorem fields?_of_hasStray (h : j.HasStray names) : j.fields? names .refused = none := by
  cases j with
  | obj ms =>
    obtain ⟨m, hm, hstray⟩ := h
    rw [Option.eq_none_iff_forall_ne_some]
    intro fields hfields
    exact hstray ((fields?_obj_eq_some_iff.1 hfields).1.2 rfl m hm)
  | _ => exact h.elim

/-- A list cannot be read if one of its elements cannot. -/
theorem list?_of_mem {α : Type} {read : Json → Option α} {items : List Json} {item : Json}
    (hmem : item ∈ items) (h : read item = none) : list? read (.arr items) = none := by
  obtain ⟨before, after, rfl⟩ := List.append_of_mem hmem
  simp [list?, h]

theorem AnyItem.defaulted_eq_none {α : Type} {read : Json → Option α} {P : Json → Prop}
    (h : j.AnyItem name P) (hP : ∀ item, P item → read item = none) (hname : name ∈ names)
    (hfields : j.fields? names extra = some fields) :
    fields.defaulted name [] (list? read) = none := by
  cases j with
  | obj ms =>
    obtain ⟨items, hitems, item, hmem, hitem⟩ := h
    obtain ⟨⟨honce, -⟩, rfl⟩ := fields?_obj_eq_some_iff.1 hfields
    rw [Fields.defaulted, (honce.lookup_eq_some_iff hname).2 hitems]
    exact list?_of_mem hmem (hP item hitem)
  | _ => exact h.elim

end OpCatalog.Json
