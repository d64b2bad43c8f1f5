import OpCatalog.Catalog.Encoding
import OpCatalog.Proofs.JsonText
import OpCatalog.Proofs.QuickReading
import OpCatalog.Proofs.Record

/-!
# Catalogues read back

All that can change about a catalogue when it is written and read again are its bounds, which are
read as the reading of numerals has it: a double that is not finite is written as null and refused,
and a finite one is what its numeral is read as. So a catalogue is read back exactly when the
reading keeps each of its bounds. What is read has finite bounds, and a reading that keeps all
finite doubles can write it and read it again.
-/
namespace OpCatalog

/-! ## Bounds -/

namespace Reading

variable {r : Reading} {x : Double}

/-- What is read for a double that has been written. -/
def again? (r : Reading) (x : Double) : Option Double :=
  if x.isFinite then r.double? x.toNumeral else none

theorem again?_eq_self_iff : r.again? x = some x ↔ r.Keeps x := by
  rw [again?, Option.ite_none_right_eq_some]
  exact ⟨And.right, fun h => ⟨isFinite_of_keeps h, h⟩⟩

theorem isFinite_of_again? {y : Double} (h : r.again? x = some y) : x.isFinite = true := by
  rw [again?, Option.ite_none_right_eq_some] at h
  exact h.1

end Reading

theorem Json.doubleBy?_ofDouble (r : Reading) (x : Double) :
    doubleBy? r (ofDouble x) = r.again? x := by
  rw [ofDouble, Reading.again?]
  split
  · rfl
  · rfl

theorem Json.isFinite_of_doubleBy? {r : Reading} {j : Json} {x : Double}
    (h : j.doubleBy? r = some x) : x.isFinite = true := by
  cases j with
  | num n => exact r.isFinite h
  | _ => cases h

namespace Bounds

variable {r : Reading} {b : Bounds}

def again? (r : Reading) (b : Bounds) : Option Bounds := do
  let default ← r.again? b.default
  let min ← r.again? b.min
  let max ← r.again? b.max
  some ⟨default, min, max⟩

/-- Each of the three is read back. -/
structure KeptBy (r : Reading) (b : Bounds) : Prop where
  default : r.Keeps b.default
  min : r.Keeps b.min
  max : r.Keeps b.max

instance (r : Reading) (b : Bounds) : Decidable (b.KeptBy r) :=
  decidable_of_iff (r.Keeps b.default ∧ r.Keeps b.min ∧ r.Keeps b.max)
    ⟨fun ⟨hdefault, hmin, hmax⟩ => ⟨hdefault, hmin, hmax⟩,
      fun h => ⟨h.default, h.min, h.max⟩⟩

theorem again?_eq_self_iff : b.again? r = some b ↔ b.KeptBy r := by
  obtain ⟨default, min, max⟩ := b
  simp only [again?, Option.bind_eq_bind, Option.bind_eq_some_iff, Option.some.injEq, mk.injEq]
  constructor
  · rintro ⟨_, hdefault, _, hmin, _, hmax, rfl, rfl, rfl⟩
    exact ⟨Reading.again?_eq_self_iff.1 hdefault, Reading.again?_eq_self_iff.1 hmin,
      Reading.again?_eq_self_iff.1 hmax⟩
  · rintro ⟨hdefault, hmin, hmax⟩
    exact ⟨_, Reading.again?_eq_self_iff.2 hdefault, _, Reading.again?_eq_self_iff.2 hmin,
      _, Reading.again?_eq_self_iff.2 hmax, rfl, rfl, rfl⟩

theorem isFinite_of_again? {b' : Bounds} (h : b.again? r = some b') : b.isFinite = true := by
  simp only [again?, Option.bind_eq_bind, Option.bind_eq_some_iff] at h
  obtain ⟨_, hdefault, _, hmin, _, hmax, -⟩ := h
  simp [isFinite, Reading.isFinite_of_again? hdefault, Reading.isFinite_of_again? hmin,
    Reading.isFinite_of_again? hmax]

theorem KeptBy.isFinite (h : b.KeptBy r) : b.isFinite = true :=
  isFinite_of_again? (again?_eq_self_iff.2 h)

theorem keptBy_of_readsBack (hr : r.ReadsBack) (h : b.isFinite = true) : b.KeptBy r := by
  simp only [isFinite, Bool.and_eq_true] at h
  exact ⟨hr _ h.1.1, hr _ h.1.2, hr _ h.2⟩

/-- Each of the three has a brief numeral. -/
def isBrief (b : Bounds) : Bool := b.default.isBrief && b.min.isBrief && b.max.isBrief

theorem keptBy_quick (hfinite : b.isFinite = true) (hbrief : b.isBrief = true) :
    b.KeptBy .quick := by
  simp only [isFinite, Bool.and_eq_true] at hfinite
  simp only [isBrief, Bool.and_eq_true] at hbrief
  exact ⟨Double.keeps_quick_of_isBrief hfinite.1.1 hbrief.1.1,
    Double.keeps_quick_of_isBrief hfinite.1.2 hbrief.1.2,
    Double.keeps_quick_of_isBrief hfinite.2 hbrief.2⟩

end Bounds

/-! ## Records -/

open Json.Fields (required_of_eq defaulted_of_eq defaulted_text)

def Argument.again? (r : Reading) (a : Argument) : Option Argument :=
  (a.bounds.again? r).map fun bounds => { a with bounds }

def Operation.again? (r : Reading) (op : Operation) : Option Operation :=
  (op.arguments.mapM (Argument.again? r)).map fun arguments => { op with arguments }

/-- What is read for a catalogue that has been written. -/
def Catalog.again? (r : Reading) (c : Catalog) : Option Catalog :=
  (c.operations.mapM (Operation.again? r)).map fun operations => { c with operations }

theorem Argument.ofJsonBy?_toJson (r : Reading) (a : Argument) :
    ofJsonBy? r a.toJson = a.again? r := by
  obtain ⟨fields, hfields, hname, hkind, hflags, hpriority, hdefault, hmin, hmax, henum⟩ :
      ∃ fields : Json.Fields, a.toJson.fields? fieldNames .ignored = some fields ∧
        fields.required "name" Json.string? = some a.name ∧
        fields.required "kind" (Json.constant? Kind.ofLabel?) = some a.kind ∧
        fields.required "flags" Json.uint32? = some a.flags.bits ∧
        fields.required "priority" Json.int32? = some a.priority ∧
        fields.defaulted "default" .zero (Json.doubleBy? r) = r.again? a.bounds.default ∧
        fields.defaulted "min" .zero (Json.doubleBy? r) = r.again? a.bounds.min ∧
        fields.defaulted "max" .zero (Json.doubleBy? r) = r.again? a.bounds.max ∧
        fields.defaulted "enum_type_name" none (Json.nullable? Json.string?) = some a.enumType :=
    ⟨_, Json.fields?_ofFields (by exact (by decide : fieldNames.Nodup)),
      required_of_eq rfl rfl, required_of_eq rfl (Kind.ofLabel?_label _),
      required_of_eq rfl (Json.uint32?_ofInt _), required_of_eq rfl (Json.int32?_ofInt _),
      defaulted_of_eq rfl (Json.doubleBy?_ofDouble r _),
      defaulted_of_eq rfl (Json.doubleBy?_ofDouble r _),
      defaulted_of_eq rfl (Json.doubleBy?_ofDouble r _), defaulted_text rfl⟩
  rw [ofJsonBy?, hfields]
  simp only [Option.bind_eq_bind, Option.bind_some, hname, hkind, hflags, hpriority, hdefault,
    hmin, hmax, henum, again?, Bounds.again?, Option.map_bind, Function.comp_def, Option.map_some]

theorem Operation.ofJsonBy?_toJson (r : Reading) (op : Operation) :
    ofJsonBy? r op.toJson = op.again? r := by
  obtain ⟨fields, hfields, hname, hdescription, hcategory, harguments⟩ :
      ∃ fields : Json.Fields, op.toJson.fields? fieldNames .ignored = some fields ∧
        fields.required "name" Json.string? = some op.name ∧
        fields.defaulted "description" "" Json.string? = some op.description ∧
        fields.required "category" Json.string? = some op.category ∧
        fields.defaulted "arguments" [] (Json.list? (Argument.ofJsonBy? r)) =
          op.arguments.mapM fun a => Argument.ofJsonBy? r a.toJson :=
    ⟨_, Json.fields?_obj (by exact (by decide : fieldNames.Nodup)), required_of_eq rfl rfl,
      defaulted_of_eq rfl rfl, required_of_eq rfl rfl,
      defaulted_of_eq rfl (Json.list?_map op.arguments)⟩
  rw [ofJsonBy?, hfields]
  simp only [Option.bind_eq_bind, Option.bind_some, hname, hdescription, hcategory, harguments,
    Argument.ofJsonBy?_toJson, again?, Option.map_eq_bind, Function.comp_def]

theorem EnumMember.ofJson?_toJson (m : EnumMember) : ofJson? m.toJson = some m := by
  obtain ⟨fields, hfields, hname, hnick, hvalue⟩ :
      ∃ fields : Json.Fields, m.toJson.fields? fieldNames .ignored = some fields ∧
        fields.required "name" Json.string? = some m.name ∧
        fields.required "nick" Json.string? = some m.nick ∧
        fields.required "value" Json.int32? = some m.value :=
    ⟨_, Json.fields?_obj (by exact (by decide : fieldNames.Nodup)), required_of_eq rfl rfl,
      required_of_eq rfl rfl, required_of_eq rfl (Json.int32?_ofInt _)⟩
  rw [ofJson?, hfields]
  simp only [Option.bind_eq_bind, Option.bind_some, hname, hnick, hvalue]

theorem EnumType.ofJson?_toJson (e : EnumType) : ofJson? e.toJson = some e := by
  obtain ⟨fields, hfields, hname, hmembers⟩ :
      ∃ fields : Json.Fields, e.toJson.fields? fieldNames .ignored = some fields ∧
        fields.required "type_name" Json.string? = some e.name ∧
        fields.defaulted "values" [] (Json.list? EnumMember.ofJson?) = some e.members :=
    ⟨_, Json.fields?_obj (by exact (by decide : fieldNames.Nodup)), required_of_eq rfl rfl,
      defaulted_of_eq rfl (Json.list?_map_of_forall_mem fun m _ => EnumMember.ofJson?_toJson m)⟩
  rw [ofJson?, hfields]
  simp only [Option.bind_eq_bind, Option.bind_some, hname, hmembers]

theorem Catalog.ofJsonBy?_toJson (r : Reading) (c : Catalog) :
    ofJsonBy? r c.toJson = c.again? r := by
  obtain ⟨fields, hfields, hoperations, henums⟩ :
      ∃ fields : Json.Fields, c.toJson.fields? fieldNames .ignored = some fields ∧
        fields.defaulted "operations" [] (Json.list? (Operation.ofJsonBy? r)) =
          (c.operations.mapM fun op => Operation.ofJsonBy? r op.toJson) ∧
        fields.defaulted "enums" [] (Json.list? EnumType.ofJson?) = some c.enums :=
    ⟨_, Json.fields?_obj (by exact (by decide : fieldNames.Nodup)),
      defaulted_of_eq rfl (Json.list?_map c.operations),
      defaulted_of_eq rfl (Json.list?_map_of_forall_mem fun e _ => EnumType.ofJson?_toJson e)⟩
  rw [ofJsonBy?, hfields]
  simp only [Option.bind_eq_bind, Option.bind_some, hoperations, henums,
    Operation.ofJsonBy?_toJson, again?, Option.map_eq_bind, Function.comp_def]

/-! ## What is read back -/

/-- All bounds of all arguments are finite. -/
def Operation.hasFiniteBounds (op : Operation) : Bool := op.arguments.all (·.bounds.isFinite)

def Catalog.hasFiniteBounds (c : Catalog) : Bool := c.operations.all (·.hasFiniteBounds)

theorem Catalog.hasFiniteBounds_iff {c : Catalog} :
    c.hasFiniteBounds ↔ ∀ op ∈ c.operations, ∀ a ∈ op.arguments, a.bounds.isFinite := by
  simp only [hasFiniteBounds, Operation.hasFiniteBounds, List.all_eq_true]

/-- The numerals of all bounds of all arguments are read back. -/
def Catalog.KeptBy (r : Reading) (c : Catalog) : Prop :=
  ∀ op ∈ c.operations, ∀ a ∈ op.arguments, a.bounds.KeptBy r

instance (r : Reading) (c : Catalog) : Decidable (c.KeptBy r) :=
  inferInstanceAs (Decidable (∀ op ∈ c.operations, ∀ a ∈ op.arguments, a.bounds.KeptBy r))

section

variable {r : Reading}

theorem Argument.again?_eq_self_iff {a : Argument} :
    a.again? r = some a ↔ a.bounds.KeptBy r := by
  rw [← Bounds.again?_eq_self_iff, again?, Option.map_eq_some_iff]
  constructor
  · rintro ⟨bounds, hbounds, heq⟩
    rw [hbounds, ← heq]
  · intro h
    exact ⟨a.bounds, h, rfl⟩

theorem Operation.again?_eq_self_iff {op : Operation} :
    op.again? r = some op ↔ ∀ a ∈ op.arguments, a.bounds.KeptBy r := by
  simp only [← Argument.again?_eq_self_iff, ← Json.mapM_eq_self_iff, again?,
    Option.map_eq_some_iff]
  constructor
  · rintro ⟨arguments, harguments, heq⟩
    rw [harguments, ← heq]
  · intro h
    exact ⟨op.arguments, h, rfl⟩

theorem Catalog.again?_eq_self_iff {c : Catalog} : c.again? r = some c ↔ c.KeptBy r := by
  simp only [KeptBy, ← Operation.again?_eq_self_iff, ← Json.mapM_eq_self_iff, again?,
    Option.map_eq_some_iff]
  constructor
  · rintro ⟨operations, hoperations, heq⟩
    rw [hoperations, ← heq]
  · intro h
    exact ⟨c.operations, h, rfl⟩

/-- Nothing is read for a catalogue that has a bound that is not finite. -/
theorem Catalog.hasFiniteBounds_of_again? {c c' : Catalog} (h : c.again? r = some c') :
    c.hasFiniteBounds = true := by
  obtain ⟨operations, hoperations, -⟩ := Option.map_eq_some_iff.1 h
  rw [hasFiniteBounds_iff]
  intro op hop a ha
  obtain ⟨op', hop'⟩ := Json.exists_of_mapM hoperations hop
  obtain ⟨arguments, harguments, -⟩ := Option.map_eq_some_iff.1 hop'
  obtain ⟨a', ha'⟩ := Json.exists_of_mapM harguments ha
  obtain ⟨bounds, hbounds, -⟩ := Option.map_eq_some_iff.1 ha'
  exact Bounds.isFinite_of_again? hbounds

theorem Catalog.KeptBy.hasFiniteBounds {c : Catalog} (h : c.KeptBy r) : c.hasFiniteBounds = true :=
  hasFiniteBounds_of_again? (again?_eq_self_iff.2 h)

theorem Catalog.keptBy_of_readsBack {c : Catalog} (hr : r.ReadsBack)
    (hc : c.hasFiniteBounds = true) : c.KeptBy r :=
  fun op hop a ha => Bounds.keptBy_of_readsBack hr (hasFiniteBounds_iff.1 hc op hop a ha)

/-! ## What can be read -/

theorem Argument.isFinite_of_ofJsonBy? {j : Json} {a : Argument} (h : ofJsonBy? r j = some a) :
    a.bounds.isFinite = true := by
  have hfinite : ∀ {fields : Json.Fields} {name : String} {x : Double},
      fields.defaulted name .zero (Json.doubleBy? r) = some x → x.isFinite = true := by
    intro fields name x hx
    rcases Json.Fields.exists_of_defaulted hx with rfl | ⟨j, hj⟩
    · decide
    · exact Json.isFinite_of_doubleBy? hj
  simp only [ofJsonBy?, Option.bind_eq_bind, Option.bind_eq_some_iff, Option.some.injEq] at h
  obtain ⟨_, -, _, -, _, -, _, -, _, -, _, hdefault, _, hmin, _, hmax, _, -, rfl⟩ := h
  simp [Bounds.isFinite, hfinite hdefault, hfinite hmin, hfinite hmax]

theorem Operation.hasFiniteBounds_of_ofJsonBy? {j : Json} {op : Operation}
    (h : ofJsonBy? r j = some op) : op.hasFiniteBounds = true := by
  simp only [ofJsonBy?, Option.bind_eq_bind, Option.bind_eq_some_iff, Option.some.injEq] at h
  obtain ⟨_, -, _, -, _, -, _, -, _, harguments, rfl⟩ := h
  rw [hasFiniteBounds, List.all_eq_true]
  intro a ha
  obtain ⟨j, hj⟩ := Json.Fields.exists_of_defaulted_list? harguments ha
  exact Argument.isFinite_of_ofJsonBy? hj

theorem Catalog.hasFiniteBounds_of_ofJsonBy? {j : Json} {c : Catalog}
    (h : ofJsonBy? r j = some c) : c.hasFiniteBounds = true := by
  simp only [ofJsonBy?, Option.bind_eq_bind, Option.bind_eq_some_iff, Option.some.injEq] at h
  obtain ⟨_, -, _, hoperations, _, -, rfl⟩ := h
  rw [hasFiniteBounds, List.all_eq_true]
  intro op hop
  obtain ⟨j, hj⟩ := Json.Fields.exists_of_defaulted_list? hoperations hop
  exact Operation.hasFiniteBounds_of_ofJsonBy? hj

end

/-! ## Texts -/

namespace Catalog

/-- From its text a catalogue is read as from its value, whatever the layout. -/
theorem parseBy?_render {layout : Json.Layout} (hlayout : layout.Blank) (r : Reading)
    (c : Catalog) : parseBy? r (c.render layout) = c.again? r := by
  rw [parseBy?, render, Json.parse?_render hlayout, Option.bind_some, ofJsonBy?_toJson]

/-- If finite doubles are read back from their numerals, both texts of a catalogue with finite
bounds are read back as that catalogue. However numerals are read, only such catalogues come of
texts, so that what has been read can be written and read again. -/
theorem parse?_round_trip (r : Reading) :
    (r.ReadsBack → ∀ c : Catalog, c.hasFiniteBounds →
      parseBy? r (c.render .compact) = some c ∧ parseBy? r (c.render .pretty) = some c) ∧
    ∀ (text : String) (c : Catalog), parseBy? r text = some c →
      c.hasFiniteBounds ∧ (r.ReadsBack →
        parseBy? r (c.render .compact) = some c ∧ parseBy? r (c.render .pretty) = some c) := by
  have hwritten : r.ReadsBack → ∀ c : Catalog, c.hasFiniteBounds →
      parseBy? r (c.render .compact) = some c ∧ parseBy? r (c.render .pretty) = some c := by
    intro hr c hc
    rw [parseBy?_render Json.Layout.blank_compact, parseBy?_render Json.Layout.blank_pretty,
      again?_eq_self_iff.2 (keptBy_of_readsBack hr hc)]
    exact ⟨rfl, rfl⟩
  refine ⟨hwritten, ?_⟩
  intro text c hread
  obtain ⟨j, -, hj⟩ := Option.bind_eq_some_iff.1 hread
  have hc := hasFiniteBounds_of_ofJsonBy? hj
  exact ⟨hc, fun hr => hwritten hr c hc⟩

/-- Names that need escapes or lie outside the basic plane, a negative zero, the least and the
greatest positive doubles, flags without a name, and lists without elements. -/
def awkward : Catalog where
  operations :=
    [{ name := "\"quoted\"\n\x01"
       category := ""
       arguments :=
        [{ name := "\\𝔸"
           kind := .arrayDouble
           flags := ⟨0xffffffff⟩
           priority := -0x80000000
           bounds := ⟨⟨0x8000000000000000⟩, ⟨1⟩, ⟨0x7fefffffffffffff⟩⟩
           enumType := some "" }] },
      { name := "bare", category := "none" }]
  enums := [{ name := "VipsKernel" }]

/-- The quick reading keeps its bounds as well. -/
theorem parse?_round_trip_awkward :
    Reading.nearest.ReadsBack ∧ awkward.KeptBy .quick ∧ awkward.hasFiniteBounds ∧
      parseBy? .nearest (awkward.render .compact) = some awkward ∧
      parseBy? .nearest (awkward.render .pretty) = some awkward := by
  have hr := Reading.readsBack_nearest
  obtain ⟨hwritten, hread⟩ := parse?_round_trip .nearest
  obtain ⟨hcompact, -⟩ := hwritten hr awkward (by decide)
  obtain ⟨hfinite, hback⟩ := hread (awkward.render .compact) awkward hcompact
  exact ⟨hr, by decide +kernel, hfinite, hback hr⟩

end Catalog

end OpCatalog
