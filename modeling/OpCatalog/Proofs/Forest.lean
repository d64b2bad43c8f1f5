import OpCatalog.InMemory.Host
import OpCatalog.Proofs.Outcome
import Mathlib.Data.List.Forall2

/-!
# What holds of every forest

A forest stores each link between types twice, from the child and from the parent, and each name
twice, with its type and in a table. `WellFormed` says that all of these agree and that links lead
to earlier types; `Grown.wellFormed` says that registration never breaks it.
-/
namespace OpCatalog

namespace Forest

variable {f : Forest} {t p : TypeHandle} {e : TypeEntry} {n : String}

/-- The handles of the registered types, in the order of registration. -/
def handles (f : Forest) : List TypeHandle := (List.range f.size).map fun n => ⟨n + 1⟩

def names (f : Forest) : List String := f.entries.map (·.name)

/-! ## Look-ups -/

theorem isSome_entry?_iff : (f.entry? t).isSome ↔ 0 < t.raw ∧ t.raw ≤ f.size := by
  rcases t with ⟨_ | n⟩
  · simp [Forest.entry?]
  · simp only [Forest.entry?, isSome_getElem?, size]
    omega

theorem mem_handles_iff : t ∈ f.handles ↔ (f.entry? t).isSome := by
  rw [isSome_entry?_iff, handles, List.mem_map]
  constructor
  · rintro ⟨n, hn, rfl⟩
    exact ⟨Nat.succ_pos n, Nat.succ_le_of_lt (List.mem_range.1 hn)⟩
  · rintro ⟨h, h'⟩
    refine ⟨t.raw - 1, List.mem_range.2 (by omega), ?_⟩
    rw [Nat.sub_add_cancel h]

theorem mem_entries_of_some (h : f.entry? t = some e) : e ∈ f.entries := by
  rcases t with ⟨_ | n⟩
  · simp [Forest.entry?] at h
  · exact List.mem_of_getElem? h

theorem exists_entry?_of_mem_names (h : n ∈ f.names) :
    ∃ t e, f.entry? t = some e ∧ e.name = n := by
  obtain ⟨e, he, rfl⟩ := List.mem_map.1 h
  obtain ⟨i, hi⟩ := List.mem_iff_getElem?.1 he
  exact ⟨⟨i + 1⟩, e, hi, rfl⟩

/-! ## The invariant -/

/-- The parts of a forest agree with each other, and links lead to earlier types. -/
structure WellFormed (f : Forest) : Prop where
  name_ne : "" ∉ f.names
  /-- The table knows nothing but the names of the types. -/
  entry?_of_lookup? : ∀ {n t}, f.lookup? n = some t → ∃ e, f.entry? t = some e ∧ e.name = n
  /-- The table knows every type; two types of one name would need two places in it. -/
  lookup?_of_entry? : ∀ {t e}, f.entry? t = some e → f.lookup? e.name = some t
  parent_lt : ∀ {t p}, f.parent? t = some p → (f.entry? p).isSome ∧ p.raw < t.raw
  valueType_lt : ∀ {t e spec}, f.entry? t = some e → spec ∈ e.parameters →
    (f.entry? spec.valueType).isSome ∧ spec.valueType.raw < t.raw
  children_eq : ∀ {t e}, f.entry? t = some e →
    e.children = f.handles.filter fun c => f.parent? c = some t

theorem wellFormed_empty : empty.WellFormed := by
  have hnone : ∀ t, empty.entry? t = none := by
    rintro ⟨_ | n⟩
    · rfl
    · rfl
  refine ⟨by simp [names, empty], ?_, ?_, ?_, ?_, ?_⟩
  · intro n t h
    simp [lookup?, empty] at h
  · intro t e h
    simp [hnone] at h
  · intro t p h
    simp [parent?, hnone] at h
  · intro t e spec h
    simp [hnone] at h
  · intro t e h
    simp [hnone] at h

theorem WellFormed.isSome_entry?_of_lookup? (hf : f.WellFormed) (h : f.lookup? n = some t) :
    (f.entry? t).isSome := by
  obtain ⟨e, he, -⟩ := hf.entry?_of_lookup? h
  exact Option.isSome_of_eq_some he

theorem WellFormed.lookup?_eq_none_iff (hf : f.WellFormed) : f.lookup? n = none ↔ n ∉ f.names := by
  constructor
  · intro h hn
    obtain ⟨t, e, he, rfl⟩ := exists_entry?_of_mem_names hn
    rw [hf.lookup?_of_entry? he] at h
    cases h
  · intro hn
    rw [Option.eq_none_iff_forall_ne_some]
    intro t h
    obtain ⟨e, he, rfl⟩ := hf.entry?_of_lookup? h
    exact hn (List.mem_map_of_mem (mem_entries_of_some he))

theorem WellFormed.nodup_names (hf : f.WellFormed) : f.names.Nodup := by
  have hplace : ∀ {i : Nat} {n : String}, f.names[i]? = some n → f.lookup? n = some ⟨i + 1⟩ := by
    intro i n hn
    rw [names, List.getElem?_map] at hn
    obtain ⟨e, he, rfl⟩ := Option.map_eq_some_iff.1 hn
    exact hf.lookup?_of_entry? (t := ⟨i + 1⟩) he
  refine List.pairwise_iff_getElem.2 fun i j hi hj hlt heq => ?_
  have hsame := hplace (List.getElem?_eq_getElem hi)
  rw [heq, hplace (List.getElem?_eq_getElem hj)] at hsame
  simp only [Option.some.injEq, TypeHandle.mk.injEq] at hsame
  omega

/-! ## Insertion -/

/-- What an insertion makes of the entry of an earlier type. -/
def linked (child : TypeHandle) (parent : Option TypeHandle) (t : TypeHandle) (old : TypeEntry) :
    TypeEntry :=
  if parent = some t then { old with children := old.children ++ [child] } else old

@[simp] theorem linked_name (child : TypeHandle) (parent : Option TypeHandle) (t : TypeHandle)
    (old : TypeEntry) : (linked child parent t old).name = old.name := by
  unfold linked; split <;> rfl

@[simp] theorem linked_parent (child : TypeHandle) (parent : Option TypeHandle) (t : TypeHandle)
    (old : TypeEntry) : (linked child parent t old).parent = old.parent := by
  unfold linked; split <;> rfl

@[simp] theorem linked_parameters (child : TypeHandle) (parent : Option TypeHandle)
    (t : TypeHandle) (old : TypeEntry) :
    (linked child parent t old).parameters = old.parameters := by
  unfold linked; split <;> rfl

@[simp] theorem linked_fundamental (child : TypeHandle) (parent : Option TypeHandle)
    (t : TypeHandle) (old : TypeEntry) :
    (linked child parent t old).fundamental = old.fundamental := by
  unfold linked; split <;> rfl

theorem getElem?_addChild (child parent : TypeHandle) (i : Nat) :
    (f.addChild child parent).entries[i]? =
      (f.entries[i]?).map (linked child (some parent) ⟨i + 1⟩) := by
  rcases parent with ⟨_ | j⟩
  · have hid : linked child (some ⟨0⟩) ⟨i + 1⟩ = id := by
      funext old
      simp [linked]
    rw [hid, Option.map_id]
    rfl
  · simp only [addChild, List.getElem?_modify]
    by_cases hij : j = i
    · subst hij
      have hlink : linked child (some ⟨j + 1⟩) ⟨j + 1⟩ =
          fun old => { old with children := old.children ++ [child] } := by
        funext old
        simp [linked]
      rw [hlink]
      simp
    · have hid : linked child (some ⟨j + 1⟩) ⟨i + 1⟩ = id := by
        funext old
        simp [linked, hij]
      rw [hid]
      simp [hij]

/-- An insertion adds one type, links it to its parent and changes nothing else. -/
theorem entry?_insert (f : Forest) (e : TypeEntry) (t : TypeHandle) :
    Forest.entry? (f.insert e).2 t =
      if t = ⟨f.size + 1⟩ then some e
      else (f.entry? t).map (linked ⟨f.size + 1⟩ e.parent t) := by
  rcases t with ⟨_ | i⟩
  · simp [Forest.entry?]
  have hold : ∀ old : Forest, old.entries.length = f.size →
      (old.entries ++ [e])[i]? = if i = f.size then some e else old.entries[i]? := by
    intro old hlen
    rcases Nat.lt_trichotomy i f.size with h | h | h
    · rw [List.getElem?_append_left (by omega), if_neg (by omega)]
    · rw [if_pos h, List.getElem?_append_right (by omega), hlen, h, Nat.sub_self]
      rfl
    · rw [if_neg (by omega), List.getElem?_eq_none (by simp; omega),
        List.getElem?_eq_none (by omega)]
  have hif : ((⟨i + 1⟩ : TypeHandle) = ⟨f.size + 1⟩) = (i = f.size) := by simp
  simp only [hif]
  cases hp : e.parent with
  | none =>
    have hid : linked ⟨f.size + 1⟩ none ⟨i + 1⟩ = id := by
      funext old
      simp [linked]
    rw [hid, Option.map_id]
    simpa only [insert, hp, entry?, id] using hold f rfl
  | some parent =>
    have h := hold (f.addChild ⟨f.size + 1⟩ parent) (size_addChild f _ _)
    rw [getElem?_addChild] at h
    simpa only [insert, hp, entry?] using h

theorem entry?_insert_self (f : Forest) (e : TypeEntry) :
    Forest.entry? (f.insert e).2 ⟨f.size + 1⟩ = some e := by
  rw [Forest.entry?_insert, if_pos rfl]

theorem entry?_insert_of_some (h : f.entry? t = some e) (new : TypeEntry) :
    Forest.entry? (f.insert new).2 t = some (linked ⟨f.size + 1⟩ new.parent t e) := by
  have hle := (isSome_entry?_iff.1 (Option.isSome_of_eq_some h)).2
  have hne : t ≠ ⟨f.size + 1⟩ := by
    rintro rfl
    exact absurd hle (by simp)
  rw [Forest.entry?_insert, if_neg hne, h]
  rfl

theorem names_insert (f : Forest) (e : TypeEntry) : (f.insert e).2.names = f.names ++ [e.name] := by
  have hlinked : ∀ parent, (f.addChild ⟨f.size + 1⟩ parent).names = f.names := by
    intro parent
    apply List.ext_getElem?
    intro i
    simp only [names, List.getElem?_map, getElem?_addChild, Option.map_map]
    congr 1
    funext old
    exact linked_name _ _ _ old
  cases hp : e.parent with
  | none => simp [insert, hp, names]
  | some parent =>
    have h := hlinked parent
    simp only [names] at h
    simp [insert, hp, names, h]

theorem handles_insert (f : Forest) (e : TypeEntry) :
    (f.insert e).2.handles = f.handles ++ [⟨f.size + 1⟩] := by
  simp [handles, List.range_succ]

/-- A name stands for the last type that it was given. -/
theorem lookup?_insert (f : Forest) (e : TypeEntry) (n : String) :
    (f.insert e).2.lookup? n = if n = e.name then some ⟨f.size + 1⟩ else f.lookup? n := by
  have hkept : ∀ parent, (f.addChild ⟨f.size + 1⟩ parent).byName = f.byName := by
    rintro ⟨_ | i⟩ <;> rfl
  have htable : (f.insert e).2.byName = (e.name, ⟨f.size + 1⟩) :: f.byName := by
    cases hp : e.parent with
    | none => simp [insert, hp]
    | some parent => simp [insert, hp, hkept]
  rw [lookup?, htable]
  by_cases hn : n = e.name
  · simp [hn]
  · simp [List.lookup_cons, hn, beq_false_of_ne hn, lookup?]

theorem lookup?_insert_of_some (h : f.lookup? n = some t) (fresh : f.lookup? e.name = none) :
    (f.insert e).2.lookup? n = some t := by
  have hne : n ≠ e.name := by
    rintro rfl
    rw [fresh] at h
    cases h
  rw [lookup?_insert, if_neg hne, h]

theorem parent?_insert (f : Forest) (e : TypeEntry) (t : TypeHandle) :
    (f.insert e).2.parent? t = if t = ⟨f.size + 1⟩ then e.parent else f.parent? t := by
  rw [parent?, entry?_insert]
  split
  · rfl
  · cases h : f.entry? t with
    | none => simp [parent?, h]
    | some old => simp [parent?, h]

/-! ## Registration -/

variable {d : TypeDefinition} {a : ArgumentDefinition} {spec : ParamSpec}

/-- The entry is what the definition stands for among the types of the forest. -/
structure Realizes (f : Forest) (d : TypeDefinition) (e : TypeEntry) : Prop where
  name : e.name = d.name
  nickname : e.nickname = d.nickname
  isAbstract : e.isAbstract = d.isAbstract
  isBroken : e.isBroken = d.isBroken
  description : e.description = d.description
  members : e.members = d.members
  parent : f.parentOf d = .ok e.parent
  fundamental : e.fundamental = f.fundamentalOf d e.parent
  parameters : f.parameters d.name d.arguments = .ok e.parameters

theorem parameter_eq_ok_iff {owner : String} :
    f.parameter owner a = .ok spec ↔
      ∃ t, f.lookup? a.typeName = some t ∧
        spec = ⟨a.name, t, .ofNames a.flags, a.priority, a.value⟩ := by
  rw [parameter]
  cases f.lookup? a.typeName with
  | none => simp
  | some t => simp [eq_comm]

theorem parameters_eq_ok_iff {owner : String} {as : List ArgumentDefinition}
    {specs : List ParamSpec} :
    f.parameters owner as = .ok specs ↔
      List.Forall₂ (fun a spec => f.parameter owner a = .ok spec) as specs := by
  induction as generalizing specs with
  | nil => simp [parameters, eq_comm]
  | cons a as ih =>
    rw [parameters, List.forall₂_cons_left_iff]
    cases hp : f.parameter owner a with
    | error r => simp
    | ok first =>
      rw [map_eq_ok_iff]
      constructor
      · rintro ⟨rest, hrest, rfl⟩
        exact ⟨first, rest, rfl, ih.1 hrest, rfl⟩
      · rintro ⟨first', rest, hfirst, hrest, rfl⟩
        cases hfirst
        exact ⟨rest, ih.2 hrest, rfl⟩

theorem parentOf_eq_ok_iff {parent : Option TypeHandle} :
    f.parentOf d = .ok parent ↔
      (d.parent = none ∧ parent = none) ∨
        ∃ n t, d.parent = some n ∧ f.lookup? n = some t ∧ parent = some t := by
  rw [parentOf]
  cases d.parent with
  | none => simp [eq_comm]
  | some n =>
    cases hl : f.lookup? n with
    | none => simp [hl]
    | some t => simp [hl, eq_comm]

theorem ok_of_entryOf (h : f.entryOf d = .ok e) :
    d.name ≠ "" ∧ f.lookup? e.name = none ∧ f.Realizes d e ∧ e.children = [] := by
  rw [entryOf] at h
  split at h
  · simp at h
  · next hne =>
    split at h
    · simp at h
    · next hl =>
      have hfresh : f.lookup? d.name = none := by simpa using hl
      cases hp : f.parentOf d with
      | error r => simp [hp, bind, Except.bind] at h
      | ok parent =>
        cases hs : f.parameters d.name d.arguments with
        | error r => simp [hp, hs, bind, Except.bind] at h
        | ok specs =>
          simp only [hp, hs, bind, Except.bind, Except.ok.injEq] at h
          subst h
          exact ⟨by simpa using hne, hfresh, ⟨rfl, rfl, rfl, rfl, rfl, rfl, hp, rfl, hs⟩, rfl⟩

theorem ok_of_register {r : TypeHandle × Forest} (h : f.register d = .ok r) :
    ∃ e, d.name ≠ "" ∧ f.lookup? e.name = none ∧ f.Realizes d e ∧ e.children = [] ∧
      r = f.insert e := by
  obtain ⟨e, he, rfl⟩ := map_eq_ok_iff.1 h
  obtain ⟨hne, hfresh, hr, hc⟩ := ok_of_entryOf he
  exact ⟨e, hne, hfresh, hr, hc, rfl⟩

theorem Realizes.isSome_parent (h : f.Realizes d e) (hf : f.WellFormed) (hp : e.parent = some p) :
    (f.entry? p).isSome := by
  rcases parentOf_eq_ok_iff.1 h.parent with ⟨-, hnone⟩ | ⟨n, t, -, hl, ht⟩
  · rw [hnone] at hp
    cases hp
  · rw [ht] at hp
    cases hp
    exact hf.isSome_entry?_of_lookup? hl

theorem Realizes.isSome_valueType (h : f.Realizes d e) (hf : f.WellFormed)
    (hs : spec ∈ e.parameters) : (f.entry? spec.valueType).isSome := by
  have hall := parameters_eq_ok_iff.1 h.parameters
  obtain ⟨i, hi, rfl⟩ := List.getElem_of_mem hs
  have hlen := hall.length_eq
  obtain ⟨t, hl, heq⟩ := parameter_eq_ok_iff.1 (hall.get (by omega) hi)
  rw [List.get_eq_getElem] at heq
  rw [heq]
  exact hf.isSome_entry?_of_lookup? hl

/-- A later insertion under a new name does not change what a definition stands for. -/
theorem Realizes.insert (h : f.Realizes d e) (hf : f.WellFormed) {new : TypeEntry}
    (fresh : f.lookup? new.name = none) : (f.insert new).2.Realizes d e where
  name := h.name
  nickname := h.nickname
  isAbstract := h.isAbstract
  isBroken := h.isBroken
  description := h.description
  members := h.members
  parent := by
    rw [parentOf_eq_ok_iff]
    rcases parentOf_eq_ok_iff.1 h.parent with hnone | ⟨n, t, hn, hl, ht⟩
    · exact Or.inl hnone
    · exact Or.inr ⟨n, t, hn, lookup?_insert_of_some hl fresh, ht⟩
  fundamental := by
    have hkept : (e.parent.bind fun p => Forest.entry? (f.insert new).2 p).map (·.fundamental) =
        (e.parent.bind f.entry?).map (·.fundamental) := by
      cases hp : e.parent with
      | none => rfl
      | some p =>
        obtain ⟨e', he'⟩ := Option.isSome_iff_exists.1 (h.isSome_parent hf hp)
        simp [Forest.entry?_insert_of_some he', he']
    rw [h.fundamental, fundamentalOf, fundamentalOf, hkept]
  parameters := by
    rw [parameters_eq_ok_iff]
    apply (parameters_eq_ok_iff.1 h.parameters).imp
    intro a spec hspec
    obtain ⟨t, hl, heq⟩ := parameter_eq_ok_iff.1 hspec
    exact parameter_eq_ok_iff.2 ⟨t, lookup?_insert_of_some hl fresh, heq⟩

theorem Realizes.linked (h : f.Realizes d e) (child : TypeHandle) (parent : Option TypeHandle)
    (t : TypeHandle) : f.Realizes d (linked child parent t e) := by
  unfold Forest.linked
  split
  · exact ⟨h.name, h.nickname, h.isAbstract, h.isBroken, h.description, h.members, h.parent,
      h.fundamental, h.parameters⟩
  · exact h

/-! ## What registration keeps -/

theorem lt_of_registered (h : (f.entry? t).isSome) : t.raw < f.size + 1 :=
  Nat.lt_succ_of_le (isSome_entry?_iff.1 h).2

theorem isSome_entry?_insert (h : (f.entry? t).isSome) (e : TypeEntry) :
    (Forest.entry? (f.insert e).2 t).isSome := by
  obtain ⟨old, ho⟩ := Option.isSome_iff_exists.1 h
  exact Option.isSome_of_eq_some (entry?_insert_of_some ho e)

theorem ne_of_registered (h : (f.entry? t).isSome) : t ≠ ⟨f.size + 1⟩ := by
  rintro rfl
  exact Nat.lt_irrefl _ (lt_of_registered h)

theorem WellFormed.parent?_ne (hf : f.WellFormed) (c : TypeHandle) :
    f.parent? c ≠ some ⟨f.size + 1⟩ := by
  intro h
  exact ne_of_registered (hf.parent_lt h).1 rfl

/-- A new type is childless, and the last child of its parent. -/
theorem filter_handles_insert (f : Forest) (new : TypeEntry) (t : TypeHandle) :
    ((f.insert new).2.handles.filter fun c => (f.insert new).2.parent? c = some t) =
      (f.handles.filter fun c => f.parent? c = some t) ++
        if new.parent = some t then [⟨f.size + 1⟩] else [] := by
  rw [handles_insert, List.filter_append]
  congr 1
  · refine List.filter_congr fun c hc => ?_
    rw [parent?_insert, if_neg (ne_of_registered (mem_handles_iff.1 hc))]
  · by_cases hp : new.parent = some t
    · simp [parent?_insert, hp]
    · simp [parent?_insert, hp]

theorem WellFormed.insert (hf : f.WellFormed) (hne : d.name ≠ "")
    (hfresh : f.lookup? e.name = none) (hr : f.Realizes d e) (hc : e.children = []) :
    (f.insert e).2.WellFormed where
  name_ne := by
    rw [names_insert, hr.name]
    intro hm
    rcases List.mem_append.1 hm with hm | hm
    · exact hf.name_ne hm
    · exact hne (List.mem_singleton.1 hm).symm
  entry?_of_lookup? := by
    intro n t hl
    rw [lookup?_insert] at hl
    split at hl
    · next hn =>
      cases hl
      exact ⟨e, entry?_insert_self f e, hn.symm⟩
    · obtain ⟨old, ho, hname⟩ := hf.entry?_of_lookup? hl
      exact ⟨_, entry?_insert_of_some ho e, by rw [linked_name, hname]⟩
  lookup?_of_entry? := by
    intro t e' he'
    rw [Forest.entry?_insert] at he'
    split at he'
    · next ht =>
      cases he'
      rw [lookup?_insert, if_pos rfl, ht]
    · obtain ⟨old, ho, rfl⟩ := Option.map_eq_some_iff.1 he'
      rw [linked_name]
      exact lookup?_insert_of_some (hf.lookup?_of_entry? ho) hfresh
  parent_lt := by
    intro t p hp
    rw [parent?_insert] at hp
    split at hp
    · next ht =>
      have hsome := hr.isSome_parent hf hp
      exact ⟨isSome_entry?_insert hsome e, ht ▸ lt_of_registered hsome⟩
    · obtain ⟨hsome, hlt⟩ := hf.parent_lt hp
      exact ⟨isSome_entry?_insert hsome e, hlt⟩
  valueType_lt := by
    intro t e' spec he' hs
    rw [Forest.entry?_insert] at he'
    split at he'
    · next ht =>
      cases he'
      have hsome := hr.isSome_valueType hf hs
      exact ⟨isSome_entry?_insert hsome e, ht ▸ lt_of_registered hsome⟩
    · obtain ⟨old, ho, rfl⟩ := Option.map_eq_some_iff.1 he'
      rw [linked_parameters] at hs
      obtain ⟨hsome, hlt⟩ := hf.valueType_lt ho hs
      exact ⟨isSome_entry?_insert hsome e, hlt⟩
  children_eq := by
    intro t e' he'
    rw [filter_handles_insert]
    rw [Forest.entry?_insert] at he'
    split at he'
    · next ht =>
      -- Nothing registered so far can have the new type as its parent, nor can the type itself.
      cases he'
      have hself : e.parent ≠ some ⟨f.size + 1⟩ := by
        intro hp
        exact ne_of_registered (hr.isSome_parent hf hp) rfl
      have hold : (f.handles.filter fun c => f.parent? c = some ⟨f.size + 1⟩) = [] := by
        rw [List.filter_eq_nil_iff]
        intro c _ hpc
        exact hf.parent?_ne c (of_decide_eq_true hpc)
      rw [ht, hold, if_neg hself, hc]
      rfl
    · obtain ⟨old, ho, rfl⟩ := Option.map_eq_some_iff.1 he'
      rw [← hf.children_eq ho, linked]
      split
      · rfl
      · simp

theorem WellFormed.register (hf : f.WellFormed) {r : TypeHandle × Forest}
    (h : f.register d = .ok r) : r.2.WellFormed := by
  obtain ⟨e, hne, hfresh, hr, hc, rfl⟩ := ok_of_register h
  exact hf.insert hne hfresh hr hc

/-! ## Forests that registration can build -/

/-- Built by registration, on nothing or on the standard types. -/
inductive Grown : Forest → Prop
  | empty : Grown empty
  | standard : Grown standard
  | register {f : Forest} {d : TypeDefinition} {t : TypeHandle} {f' : Forest} :
    Grown f → f.register d = .ok (t, f') → Grown f'

/-- The standard types as definitions. -/
def standardDefinitions : List TypeDefinition :=
  standardTypes.map fun (name, parent, fundamental, isAbstract) =>
    { name := name, parent := parent, fundamental := some fundamental, isAbstract := isAbstract }

theorem registerAll_standardDefinitions :
    empty.registerAll standardDefinitions = (.ok (), standard) := by decide +kernel

/-- What single registrations keep, the registration of a list keeps. -/
theorem registerAll_induction {P : Forest → Prop}
    (step : ∀ {f d t f'}, P f → f.register d = .ok (t, f') → P f') (h : P f)
    (ds : List TypeDefinition) : P (f.registerAll ds).2 := by
  induction ds generalizing f with
  | nil => exact h
  | cons d ds ih =>
    rw [registerAll]
    cases hr : f.register d with
    | error r => exact h
    | ok r => exact ih (step h hr)

theorem Grown.registerAll (h : f.Grown) (ds : List TypeDefinition) : (f.registerAll ds).2.Grown :=
  registerAll_induction Grown.register h ds

theorem wellFormed_standard : standard.WellFormed := by
  have h := registerAll_induction (P := WellFormed) (fun hf hr => hf.register hr)
    wellFormed_empty standardDefinitions
  rw [registerAll_standardDefinitions] at h
  exact h

theorem Grown.wellFormed (h : f.Grown) : f.WellFormed := by
  induction h with
  | empty => exact wellFormed_empty
  | standard => exact wellFormed_standard
  | register _ hr ih => exact ih.register hr

end Forest

namespace Host

variable {h h' : Host} {d : TypeDefinition} {t : TypeHandle} {r : Refusal}

theorem ok_of_register (hd : h.register d = (.ok t, h')) :
    ∃ f, h.forest.register d = .ok (t, f) ∧ h' = { h with forest := f } := by
  rw [register] at hd
  cases hr : h.forest.register d with
  | error r => simp [hr] at hd
  | ok r =>
    rw [hr] at hd
    cases hd
    exact ⟨r.2, rfl, rfl⟩

/-- A definition that is refused leaves the host as it was. -/
theorem error_of_register (hd : h.register d = (.error r, h')) :
    h.forest.register d = .error r ∧ h' = h := by
  rw [register] at hd
  cases hr : h.forest.register d with
  | ok r => simp [hr] at hd
  | error r =>
    rw [hr] at hd
    cases hd
    exact ⟨rfl, rfl⟩

theorem grown_register (hg : h.forest.Grown) (d : TypeDefinition) :
    (h.register d).2.forest.Grown := by
  rcases hd : h.register d with ⟨r | t, h'⟩
  · obtain ⟨-, rfl⟩ := error_of_register hd
    exact hg
  · obtain ⟨f, hr, rfl⟩ := ok_of_register hd
    exact hg.register hr

end Host

end OpCatalog
