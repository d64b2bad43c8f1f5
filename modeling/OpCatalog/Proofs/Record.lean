import OpCatalog.Json.Record

/-!
# Records read back

What the readers of fields return of what the writers wrote, and where a value that was read can
come from.
-/
namespace OpCatalog.Json

variable {α : Type} {read : Json → Option α} {write : α → Json} {x : α} {xs : List α}

/-! ## Reading what was written -/

/-- An object that names no member twice gives every member under its name. -/
theorem fields?_obj {names : List String} {members : List (String × Json)}
    (h : (members.map (·.1)).Nodup) :
    fields? names .ignored (.obj members) = some fun name => members.lookup name := by
  have hknown : ((members.map (·.1)).filter (names.contains ·)).Nodup := h.filter _
  simp only [fields?, objectFields?]
  rw [if_pos ⟨hknown, by simp⟩]

theorem lookup_filterMap {fields : List (String × Option Json)} (h : (fields.map (·.1)).Nodup)
    (name : String) :
    (fields.filterMap fun (name, value) => value.map (name, ·)).lookup name =
      (fields.lookup name).bind id := by
  induction fields with
  | nil => rfl
  | cons field fields ih =>
    obtain ⟨first, value⟩ := field
    rw [List.map_cons, List.nodup_cons] at h
    have hrest := ih h.2
    by_cases hname : name = first
    · subst hname
      cases value with
      | some v => simp
      | none =>
        -- The other fields have other names, so a field without a value is not found among them.
        have hnot : fields.lookup name = none := by
          rw [List.lookup_eq_none_iff]
          intro field hfield
          have hne : name ≠ field.1 := by
            intro he
            exact h.1 (List.mem_map.2 ⟨field, hfield, he.symm⟩)
          simpa using hne
        simp [hrest, hnot]
    · have hne : (name == first) = false := by simpa using hname
      cases value with
      | some v => simp [List.lookup_cons, hne, hrest]
      | none => simp [List.lookup_cons, hne, hrest]

theorem names_sublist (fields : List (String × Option Json)) :
    ((fields.filterMap fun (name, value) => value.map (name, ·)).map (·.1)).Sublist
      (fields.map (·.1)) := by
  induction fields with
  | nil => exact List.Sublist.slnil
  | cons field fields ih =>
    obtain ⟨name, value⟩ := field
    cases value with
    | none => exact ih.cons name
    | some v => exact ih.cons_cons name

/-- An object of fields gives the value of every field that has one. -/
theorem fields?_ofFields {names : List String} {fields : List (String × Option Json)}
    (h : (fields.map (·.1)).Nodup) :
    fields? names .ignored (ofFields fields) = some fun name => (fields.lookup name).bind id := by
  rw [ofFields, fields?_obj (h.sublist (names_sublist fields))]
  simp only [lookup_filterMap h]

/-- Where every member is a field, it does not matter what becomes of others. -/
theorem fields?_obj_of_subset {names : List String} {members : List (String × Json)}
    (h : (members.map (·.1)).Nodup) (hsub : members.map (·.1) ⊆ names) :
    fields? names .refused (.obj members) = some fun name => members.lookup name := by
  have hknown : (members.map (·.1)).filter (names.contains ·) = members.map (·.1) := by
    rw [List.filter_eq_self]
    intro name hname
    exact List.contains_iff_mem.2 (hsub hname)
  simp only [fields?, objectFields?, hknown]
  rw [if_pos ⟨h, fun _ => List.length_map _⟩]

theorem fields?_ofFields_of_subset {names : List String} {fields : List (String × Option Json)}
    (h : (fields.map (·.1)).Nodup) (hsub : fields.map (·.1) ⊆ names) :
    fields? names .refused (ofFields fields) = some fun name => (fields.lookup name).bind id := by
  have hnames := names_sublist fields
  rw [ofFields, fields?_obj_of_subset (h.sublist hnames) fun _ hn => hsub (hnames.subset hn)]
  simp only [lookup_filterMap h]

/-- A required field is read from the value under its name. -/
theorem Fields.required_of_eq {fields : Fields} {name : String} {j : Json} {result : Option α}
    (h : fields name = some j) (hread : read j = result) : fields.required name read = result := by
  rw [required, h]
  exact hread

theorem Fields.defaulted_of_eq {fields : Fields} {name : String} {j : Json} {value : α}
    {result : Option α} (h : fields name = some j) (hread : read j = result) :
    fields.defaulted name value read = result := by
  rw [defaulted, h]
  exact hread

/-- A value that may be null is read back if it is never written as null itself. -/
theorem nullable?_getD (hread : ∀ x, read (write x) = some x) (hne : ∀ x, write x ≠ .null)
    (value : Option α) : nullable? read ((value.map write).getD .null) = some value := by
  cases value with
  | none => rfl
  | some x =>
    rw [Option.map_some, Option.getD_some, nullable?.eq_def]
    split
    · next hnull => exact absurd hnull (hne x)
    · rw [hread, Option.map_some]

/-- A field that is left out where there is nothing to write. -/
theorem Fields.defaulted_nullable {fields : Fields} {name : String} {value : Option α}
    (h : fields name = value.map write) (hread : ∀ x, read (write x) = some x)
    (hne : ∀ x, write x ≠ .null) : fields.defaulted name none (nullable? read) = some value := by
  have hvalue := nullable?_getD hread hne value
  rw [defaulted, h]
  cases value with
  | none => rfl
  | some x => exact hvalue

theorem nullable?_string? (value : Option String) :
    nullable? string? ((value.map str).getD null) = some value := by
  have hread : ∀ text, string? (str text) = some text := fun _ => rfl
  exact nullable?_getD hread (by simp) value

/-- An optional text is left out where there is none. -/
theorem Fields.defaulted_text {fields : Fields} {name : String} {value : Option String}
    (h : fields name = value.map str) :
    fields.defaulted name none (nullable? string?) = some value := by
  have hread : ∀ text, string? (str text) = some text := fun _ => rfl
  exact defaulted_nullable h hread (by simp)

theorem int?_ofInt (n : Int) : int? (ofInt n) = some n := Numeral.toInt?_ofInt n

theorem int32?_ofInt (n : Int32) : int32? (ofInt n.toInt) = some n := by
  have hlow := n.le_toInt
  have hhigh := n.toInt_lt
  rw [int32?, int?_ofInt, Option.bind_some, if_pos (by omega), Int32.ofInt_toInt]

theorem uint32?_ofInt (n : UInt32) : uint32? (ofInt n.toNat) = some n := by
  have hhigh := n.toNat_lt
  rw [uint32?, int?_ofInt, Option.bind_some, if_pos (by omega)]
  exact congrArg some UInt32.ofNat_toNat

/-- A list is read element by element. -/
theorem list?_map (xs : List α) :
    list? read (.arr (xs.map write)) = xs.mapM fun x => read (write x) := by
  rw [list?, List.mapM_map]
  rfl

/-- Elements are taken for themselves all at once or not at all. -/
theorem mapM_eq_self_iff {f : α → Option α} : xs.mapM f = some xs ↔ ∀ x ∈ xs, f x = some x := by
  induction xs with
  | nil => simp
  | cons x xs ih =>
    simp only [List.mapM_cons, Option.bind_eq_bind, Option.pure_def, Option.bind_eq_some_iff,
      Option.some.injEq, List.cons.injEq, List.forall_mem_cons, ← ih]
    constructor
    · rintro ⟨_, hx, _, hxs, rfl, rfl⟩
      exact ⟨hx, hxs⟩
    · rintro ⟨hx, hxs⟩
      exact ⟨x, hx, xs, hxs, rfl, rfl⟩

theorem list?_map_of_forall_mem (h : ∀ x ∈ xs, read (write x) = some x) :
    list? read (.arr (xs.map write)) = some xs :=
  (list?_map xs).trans (mapM_eq_self_iff.2 h)

/-! ## Where a value comes from -/

/-- Each of some elements that are taken all at once is taken. -/
theorem exists_of_mapM {β : Type} {f : α → Option β} {ys : List β} (h : xs.mapM f = some ys)
    (hx : x ∈ xs) : ∃ y, f x = some y := by
  induction xs generalizing ys with
  | nil => cases hx
  | cons first xs ih =>
    simp only [List.mapM_cons, Option.bind_eq_bind, Option.bind_eq_some_iff] at h
    obtain ⟨y, hy, ys, hys, -⟩ := h
    rcases List.mem_cons.1 hx with rfl | hx
    · exact ⟨y, hy⟩
    · exact ih hys hx

theorem exists_of_list? {j : Json} (h : list? read j = some xs) (hx : x ∈ xs) :
    ∃ j, read j = some x := by
  cases j with
  | arr items =>
    rw [list?] at h
    induction items generalizing xs with
    | nil =>
      simp only [List.mapM_nil, Option.pure_def, Option.some.injEq] at h
      simp [← h] at hx
    | cons item items ih =>
      simp only [List.mapM_cons, Option.bind_eq_bind, Option.pure_def] at h
      obtain ⟨first, hfirst, h⟩ := Option.bind_eq_some_iff.1 h
      obtain ⟨rest, hrest, h⟩ := Option.bind_eq_some_iff.1 h
      cases h
      rcases List.mem_cons.1 hx with rfl | hx
      · exact ⟨item, hfirst⟩
      · exact ih hx hrest
  | _ => cases h

theorem Fields.exists_of_defaulted {fields : Fields} {name : String} {value : α}
    (h : fields.defaulted name value read = some x) : x = value ∨ ∃ j, read j = some x := by
  rw [defaulted] at h
  cases hj : fields name with
  | none => exact Or.inl (by simpa [hj] using h.symm)
  | some j => exact Or.inr ⟨j, by simpa [hj] using h⟩

/-- A list that may be missing has only elements that were read. -/
theorem Fields.exists_of_defaulted_list? {fields : Fields} {name : String}
    (h : fields.defaulted name [] (list? read) = some xs) (hx : x ∈ xs) : ∃ j, read j = some x := by
  rcases exists_of_defaulted h with rfl | ⟨j, hj⟩
  · cases hx
  · exact exists_of_list? hj hx

end OpCatalog.Json
