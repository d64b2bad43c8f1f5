import OpCatalog.InMemory.Snapshot
import OpCatalog.Proofs.DiscoveredText

/-!
# Snapshots read back

A snapshot is read back from its text if the numerals of all doubles in it are. Unlike catalogues,
snapshots refuse members that they do not know, so that a text must name no field but those that
the reader asks for; and a value specification is read whole before its tag is looked at, so that
it must be plain and flat.
-/
namespace OpCatalog

open Json.Fields (required_of_eq defaulted_of_eq defaulted_nullable defaulted_text)

variable {r : Reading}

/-! ## Value specifications -/

namespace Json

theorem doubleBy?_ofDouble_of_keeps {x : Double} (h : r.Keeps x) :
    doubleBy? r (ofDouble x) = some x :=
  (doubleBy?_ofDouble r x).trans (Reading.again?_eq_self_iff.2 h)

theorem isPlain_ofDouble {x : Double} (h : r.Keeps x) :
    (ofDouble x).isPlain (doubleBy? r) = true := by
  have hread := doubleBy?_ofDouble_of_keeps h
  rw [ofDouble, if_pos (Reading.isFinite_of_keeps h)] at hread ⊢
  simp [isPlain, hread]

@[simp] theorem depth_ofDouble (x : Double) : (ofDouble x).depth = 0 := by
  rw [ofDouble]
  split
  · rfl
  · rfl

theorem isPlain_ofInt {real? : Json → Option Double} {n : Int}
    (h : -0x8000000000000000 ≤ n ∧ n < 0x10000000000000000) : (ofInt n).isPlain real? = true := by
  simp [ofInt, isPlain, Numeral.isWord, h]

@[simp] theorem isPlain_ofInt32 (real? : Json → Option Double) (n : Int32) :
    (ofInt n.toInt).isPlain real? = true := by
  have hlow := n.le_toInt
  have hhigh := n.toInt_lt
  exact isPlain_ofInt (by omega)

@[simp] theorem isPlain_ofUInt32 (real? : Json → Option Double) (n : UInt32) :
    (ofInt n.toNat).isPlain real? = true := by
  have hhigh := n.toNat_lt
  exact isPlain_ofInt (by omega)

@[simp] theorem depth_ofInt (n : Int) : (ofInt n).depth = 0 := rfl

end Json

namespace ParamValue

/-- The tag decides how the other members are read. -/
theorem ofJson?_obj {real? : Json → Option Double} {tag : String} {rest : List (String × Json)}
    (hplain : Json.isPlainMembers real? rest = true) (hdepth : Json.depthMembers rest = 0)
    (hrest : ∀ m ∈ rest, m.1 ≠ "spec") :
    ofJson? real? (.obj (("spec", .str tag) :: rest)) = ofTagged? real? tag (.obj rest) := by
  have htag : rest.filter (·.1 == "spec") = [] := by
    rw [List.filter_eq_nil_iff]
    intro m hm
    simpa using hrest m hm
  have hothers : rest.filter (·.1 != "spec") = rest := by
    rw [List.filter_eq_self]
    intro m hm
    simpa using hrest m hm
  simp [ofJson?, Json.isPlain, Json.isPlainMembers, Json.depth, Json.depthMembers, hplain, hdepth,
    depthLimit, htag, hothers]

/-- A default and bounds are read one after the other. -/
theorem bounded?_obj {α : Type} (read : Json → Option α) (default minimum maximum : Json) :
    bounded? read (.obj [("default", default), ("minimum", minimum), ("maximum", maximum)]) =
      (read default).bind fun d => (read minimum).bind fun low => (read maximum).bind fun high =>
        some (d, low, high) := by
  have hnames : (["default", "minimum", "maximum"] : List String).Nodup := by decide
  rw [bounded?, Json.fields?_obj (by exact hnames)]
  rfl

theorem unbounded?_obj {α : Type} (read : Json → Option α) (default : Json) :
    unbounded? read (.obj [("default", default)]) = read default := by
  have hnames : (["default"] : List String).Nodup := by decide
  rw [unbounded?, Json.fields?_obj (by exact hnames)]
  rfl

/-- The numerals of its doubles are read back. -/
def KeptBy (r : Reading) : ParamValue → Prop
  | .double default minimum maximum => r.Keeps default ∧ r.Keeps minimum ∧ r.Keeps maximum
  | _ => True

instance (r : Reading) : (v : ParamValue) → Decidable (v.KeptBy r)
  | .double default minimum maximum =>
    inferInstanceAs (Decidable (r.Keeps default ∧ r.Keeps minimum ∧ r.Keeps maximum))
  | .int .. | .uint .. | .boolean _ | .enum _ | .other => inferInstanceAs (Decidable True)

theorem keptBy_of_readsBack {v : ParamValue} (hr : r.ReadsBack) (h : v.isFinite = true) :
    v.KeptBy r := by
  cases v with
  | double default minimum maximum =>
    simp only [isFinite, Bool.and_eq_true] at h
    exact ⟨hr _ h.1.1, hr _ h.1.2, hr _ h.2⟩
  | _ => trivial

/-- A value specification is read back if its doubles are. -/
theorem ofJson?_toJson {v : ParamValue} (h : v.KeptBy r) :
    ofJson? (Json.doubleBy? r) v.toJson = some v := by
  cases v with
  | double d low high =>
    obtain ⟨hd, hlow, hhigh⟩ := h
    have hplain : Json.isPlainMembers (Json.doubleBy? r)
        [("default", .ofDouble d), ("minimum", .ofDouble low),
          ("maximum", .ofDouble high)] = true := by
      simp [Json.isPlainMembers, Json.isPlain_ofDouble, hd, hlow, hhigh]
    rw [toJson, ofJson?_obj hplain (by simp [Json.depthMembers]) (by simp), ofTagged?, bounded?_obj]
    simp only [Json.doubleBy?_ofDouble_of_keeps hd, Json.doubleBy?_ofDouble_of_keeps hlow,
      Json.doubleBy?_ofDouble_of_keeps hhigh, Option.bind_some, Option.map_some]
  | int d low high =>
    rw [toJson, ofJson?_obj (by simp [Json.isPlainMembers]) (by simp [Json.depthMembers])
      (by simp), ofTagged?, bounded?_obj]
    simp [Json.int32?_ofInt]
  | uint d low high =>
    rw [toJson, ofJson?_obj (by simp [Json.isPlainMembers]) (by simp [Json.depthMembers])
      (by simp), ofTagged?, bounded?_obj]
    simp [Json.uint32?_ofInt]
  | boolean d =>
    rw [toJson, ofJson?_obj rfl rfl (by simp), ofTagged?, unbounded?_obj]
    rfl
  | enum d =>
    rw [toJson, ofJson?_obj (by simp [Json.isPlainMembers]) (by simp [Json.depthMembers])
      (by simp), ofTagged?, unbounded?_obj, Json.int32?_ofInt]
    rfl
  | other =>
    rw [toJson, ofJson?_obj rfl rfl (by simp), ofTagged?]
    rfl

theorem isFinite_of_bounded? {j : Json} {d low high : Double}
    (h : bounded? (Json.doubleBy? r) j = some (d, low, high)) :
    (d.isFinite && low.isFinite && high.isFinite) = true := by
  have hread : ∀ {fields : Json.Fields} {name : String} {x : Double},
      fields.required name (Json.doubleBy? r) = some x → x.isFinite = true := by
    intro fields name x hx
    obtain ⟨j, -, hj⟩ := Option.bind_eq_some_iff.1 hx
    exact Json.isFinite_of_doubleBy? hj
  simp only [bounded?, Option.bind_eq_bind, Option.bind_eq_some_iff, Option.some.injEq,
    Prod.mk.injEq] at h
  obtain ⟨_, -, _, hd, _, hlow, _, hhigh, rfl, rfl, rfl⟩ := h
  simp [hread hd, hread hlow, hread hhigh]

/-- Only the doubles of a specification could be anything but finite, and none that is read is. -/
theorem isFinite_of_ofTagged? {tag : String} {rest : Json} {v : ParamValue}
    (h : ofTagged? (Json.doubleBy? r) tag rest = some v) : v.isFinite = true := by
  unfold ofTagged? at h
  split at h
  case h_1 =>
    obtain ⟨⟨d, low, high⟩, hread, rfl⟩ := Option.map_eq_some_iff.1 h
    exact isFinite_of_bounded? hread
  case h_7 => cases h
  all_goals
    obtain ⟨_, -, rfl⟩ := Option.map_eq_some_iff.1 h
    rfl

theorem isFinite_of_ofJson? {j : Json} {v : ParamValue}
    (h : ofJson? (Json.doubleBy? r) j = some v) : v.isFinite = true := by
  unfold ofJson? at h
  split at h
  · split at h
    · split at h
      · exact isFinite_of_ofTagged? h
      · cases h
    · exact isFinite_of_ofTagged? h
    · cases h
  · cases h

end ParamValue

/-! ## Records -/

theorem RawMember.ofJson?_toJson (m : RawMember) : ofJson? m.toJson = some m := by
  obtain ⟨fields, hfields, hname, hnick, hvalue⟩ :
      ∃ fields : Json.Fields, m.toJson.fields? fieldNames .ignored = some fields ∧
        fields.defaulted "name" none (Json.nullable? Json.string?) = some m.name ∧
        fields.defaulted "nick" none (Json.nullable? Json.string?) = some m.nick ∧
        fields.required "value" Json.int32? = some m.value :=
    ⟨_, Json.fields?_obj (by exact (by decide : fieldNames.Nodup)),
      defaulted_of_eq rfl (Json.nullable?_string? m.name),
      defaulted_of_eq rfl (Json.nullable?_string? m.nick),
      required_of_eq rfl (Json.int32?_ofInt _)⟩
  rw [ofJson?, hfields]
  simp only [Option.bind_eq_bind, Option.bind_some, hname, hnick, hvalue]

namespace ArgumentDefinition

theorem ofJson?_toJson {a : ArgumentDefinition} (h : a.value.KeptBy r) :
    ofJson? (Json.doubleBy? r) a.toJson = some a := by
  have hlabel : ∀ f : ParamFlag, Json.constant? ParamFlag.ofLabel? (.str f.label) = some f :=
    ParamFlag.ofLabel?_label
  obtain ⟨fields, hfields, hname, htype, hflags, hpriority, hvalue⟩ :
      ∃ fields : Json.Fields, a.toJson.fields? fieldNames .refused = some fields ∧
        fields.required "name" Json.string? = some a.name ∧
        fields.required "type" Json.string? = some a.typeName ∧
        fields.defaulted "flags" [] (Json.list? (Json.constant? ParamFlag.ofLabel?)) =
          some a.flags ∧
        fields.defaulted "priority" 0 Json.int32? = some a.priority ∧
        fields.defaulted "value" .other (ParamValue.ofJson? (Json.doubleBy? r)) =
          some a.value :=
    ⟨_, Json.fields?_obj_of_subset (by exact (by decide : fieldNames.Nodup)) (List.Subset.refl _),
      required_of_eq rfl rfl, required_of_eq rfl rfl,
      defaulted_of_eq rfl (Json.list?_map_of_forall_mem fun f _ => hlabel f),
      defaulted_of_eq rfl (Json.int32?_ofInt _), defaulted_of_eq rfl (ParamValue.ofJson?_toJson h)⟩
  rw [ofJson?, hfields]
  simp only [Option.bind_eq_bind, Option.bind_some, hname, htype, hflags, hpriority, hvalue]

theorem isFinite_of_ofJson? {j : Json} {a : ArgumentDefinition}
    (h : ofJson? (Json.doubleBy? r) j = some a) : a.value.isFinite = true := by
  simp only [ofJson?, Option.bind_eq_bind, Option.bind_eq_some_iff, Option.some.injEq] at h
  obtain ⟨_, -, _, -, _, -, _, -, _, -, _, hvalue, rfl⟩ := h
  rcases Json.Fields.exists_of_defaulted hvalue with rfl | ⟨j, hj⟩
  · rfl
  · exact ParamValue.isFinite_of_ofJson? hj

end ArgumentDefinition

namespace TypeDefinition

/-- The doubles that the arguments specify are finite. -/
def hasFiniteDoubles (d : TypeDefinition) : Bool := d.arguments.all (·.value.isFinite)

/-- The numerals of these doubles are read back. -/
def KeptBy (r : Reading) (d : TypeDefinition) : Prop := ∀ a ∈ d.arguments, a.value.KeptBy r

instance (r : Reading) (d : TypeDefinition) : Decidable (d.KeptBy r) :=
  inferInstanceAs (Decidable (∀ a ∈ d.arguments, a.value.KeptBy r))

/-- A list that is left out when it is empty is read as if it had been written. -/
theorem defaulted_listUnlessEmpty {α : Type} {write : α → Json} {fields : Json.Fields}
    {name : String} {xs : List α} (h : fields name = listUnlessEmpty write xs)
    (read : Json → Option α) :
    fields.defaulted name [] (Json.list? read) = Json.list? read (.arr (xs.map write)) := by
  rw [Json.Fields.defaulted, h]
  cases xs with
  | nil => rfl
  | cons x xs => rfl

theorem ofJson?_toJson {d : TypeDefinition} (h : d.KeptBy r) :
    ofJson? (Json.doubleBy? r) d.toJson = some d := by
  have hlabel : ∀ f : Fundamental, Json.constant? Fundamental.ofLabel? (.str f.label) = some f :=
    Fundamental.ofLabel?_label
  obtain ⟨fields, hfields, hname, hparent, hnickname, hfundamental, habstract, hbroken,
      hdescription, harguments, hmembers⟩ :
      ∃ fields : Json.Fields, d.toJson.fields? fieldNames .refused = some fields ∧
        fields.required "name" Json.string? = some d.name ∧
        fields.defaulted "parent" none (Json.nullable? Json.string?) = some d.parent ∧
        fields.defaulted "nickname" none (Json.nullable? Json.string?) = some d.nickname ∧
        fields.defaulted "fundamental" none
          (Json.nullable? (Json.constant? Fundamental.ofLabel?)) = some d.fundamental ∧
        fields.defaulted "abstract" false Json.bool? = some d.isAbstract ∧
        fields.defaulted "broken" false Json.bool? = some d.isBroken ∧
        fields.defaulted "description" none (Json.nullable? Json.string?) = some d.description ∧
        fields.defaulted "arguments" []
          (Json.list? (ArgumentDefinition.ofJson? (Json.doubleBy? r))) = some d.arguments ∧
        fields.defaulted "values" [] (Json.list? RawMember.ofJson?) = some d.members :=
    ⟨_, Json.fields?_ofFields_of_subset (by exact (by decide : fieldNames.Nodup))
        (List.Subset.refl _),
      required_of_eq rfl rfl, defaulted_text rfl, defaulted_text rfl,
      defaulted_nullable rfl hlabel (by simp), defaulted_of_eq rfl rfl, defaulted_of_eq rfl rfl,
      defaulted_text rfl,
      (defaulted_listUnlessEmpty rfl _).trans
        (Json.list?_map_of_forall_mem fun a ha => ArgumentDefinition.ofJson?_toJson (h a ha)),
      (defaulted_listUnlessEmpty rfl _).trans
        (Json.list?_map_of_forall_mem fun m _ => RawMember.ofJson?_toJson m)⟩
  rw [ofJson?, hfields]
  simp only [Option.bind_eq_bind, Option.bind_some, hname, hparent, hnickname, hfundamental,
    habstract, hbroken, hdescription, harguments, hmembers]

theorem hasFiniteDoubles_of_ofJson? {j : Json} {d : TypeDefinition}
    (h : ofJson? (Json.doubleBy? r) j = some d) : d.hasFiniteDoubles = true := by
  simp only [ofJson?, Option.bind_eq_bind, Option.bind_eq_some_iff, Option.some.injEq] at h
  obtain ⟨_, -, _, -, _, -, _, -, _, -, _, -, _, -, _, -, _, harguments, _, -, rfl⟩ := h
  rw [hasFiniteDoubles, List.all_eq_true]
  intro a ha
  obtain ⟨j, hj⟩ := Json.Fields.exists_of_defaulted_list? harguments ha
  exact ArgumentDefinition.isFinite_of_ofJson? hj

end TypeDefinition

/-! ## Texts -/

namespace Snapshot

def hasFiniteDoubles (s : Snapshot) : Bool := s.types.all (·.hasFiniteDoubles)

/-- The numerals of all doubles in it are read back. -/
def KeptBy (r : Reading) (s : Snapshot) : Prop := ∀ d ∈ s.types, d.KeptBy r

instance (r : Reading) (s : Snapshot) : Decidable (s.KeptBy r) :=
  inferInstanceAs (Decidable (∀ d ∈ s.types, d.KeptBy r))

theorem keptBy_of_readsBack {s : Snapshot} (hr : r.ReadsBack) (hs : s.hasFiniteDoubles = true) :
    s.KeptBy r := by
  simp only [hasFiniteDoubles, TypeDefinition.hasFiniteDoubles, List.all_eq_true] at hs
  exact fun d hd a ha => ParamValue.keptBy_of_readsBack hr (hs d hd a ha)

theorem ofJsonBy?_toJson {s : Snapshot} (h : s.KeptBy r) : ofJsonBy? r s.toJson = some s := by
  obtain ⟨fields, hfields, htypes⟩ :
      ∃ fields : Json.Fields, s.toJson.fields? fieldNames .refused = some fields ∧
        fields.defaulted "types" [] (Json.list? (TypeDefinition.ofJson? (Json.doubleBy? r))) =
          some s.types :=
    ⟨_, Json.fields?_obj_of_subset (by exact (by decide : fieldNames.Nodup)) (List.Subset.refl _),
      defaulted_of_eq rfl
        (Json.list?_map_of_forall_mem fun d hd => TypeDefinition.ofJson?_toJson (h d hd))⟩
  rw [ofJsonBy?, hfields]
  simp only [Option.bind_eq_bind, Option.bind_some, htypes]

theorem hasFiniteDoubles_of_ofJsonBy? {j : Json} {s : Snapshot} (h : ofJsonBy? r j = some s) :
    s.hasFiniteDoubles = true := by
  simp only [ofJsonBy?, Option.bind_eq_bind, Option.bind_eq_some_iff, Option.some.injEq] at h
  obtain ⟨_, -, _, htypes, rfl⟩ := h
  rw [hasFiniteDoubles, List.all_eq_true]
  intro d hd
  obtain ⟨j, hj⟩ := Json.Fields.exists_of_defaulted_list? htypes hd
  exact TypeDefinition.hasFiniteDoubles_of_ofJson? hj

/-- A snapshot is read back from its text if the numerals of its doubles are. -/
theorem parseBy?_render {s : Snapshot} (h : s.KeptBy r) : parseBy? r s.render = some s := by
  rw [parseBy?, render, Json.pretty, Json.parse?_render Json.Layout.blank_pretty, Option.bind_some,
    ofJsonBy?_toJson h]

/-- If finite doubles are read back from their numerals, a snapshot with finite doubles is read
back as it was, and so gives the same host as before or is refused as before, and no two such
snapshots have the same text. However numerals are read, only such snapshots are ever read. -/
theorem parse?_render_injective (r : Reading) :
    (r.ReadsBack → ∀ s : Snapshot, s.hasFiniteDoubles →
      parseBy? r s.render = some s ∧ (parseBy? r s.render).map load = some s.load) ∧
    (r.ReadsBack → ∀ s s' : Snapshot, s.hasFiniteDoubles → s'.hasFiniteDoubles →
      s.render = s'.render → s = s') ∧
    ∀ (text : String) (s : Snapshot), parseBy? r text = some s →
      s.hasFiniteDoubles ∧ (r.ReadsBack → parseBy? r s.render = some s) := by
  have hback : r.ReadsBack → ∀ s : Snapshot, s.hasFiniteDoubles → parseBy? r s.render = some s :=
    fun hr s hs => parseBy?_render (keptBy_of_readsBack hr hs)
  refine ⟨?_, ?_, ?_⟩
  · intro hr s hs
    rw [hback hr s hs]
    exact ⟨rfl, rfl⟩
  · intro hr s s' hs hs' heq
    have hread := hback hr s hs
    rw [heq, hback hr s' hs'] at hread
    exact (Option.some.inj hread).symm
  · intro text s hread
    obtain ⟨j, -, hj⟩ := Option.bind_eq_some_iff.1 hread
    have hs := hasFiniteDoubles_of_ofJsonBy? hj
    exact ⟨hs, fun hr => hback hr s hs⟩

/-- One argument for each kind of specification, with bounds at the ends of their ranges, a flag
that is given twice, and a member for each of the strings that may be missing. -/
def sundryType : TypeDefinition where
  name := "VipsSundry"
  fundamental := some .uint64
  arguments :=
    [{ name := "scale", typeName := "gdouble", flags := [.input, .construct, .input],
       value := .double ⟨0x8000000000000000⟩ ⟨1⟩ ⟨0x7fefffffffffffff⟩ },
      { name := "count", typeName := "gint", priority := -0x80000000,
        value := .int (-1) (-0x80000000) 0x7fffffff },
      { name := "size", typeName := "guint", value := .uint 1 0 0xffffffff },
      { name := "fast", typeName := "gboolean", value := .boolean true },
      { name := "shape", typeName := "VipsShape", value := .enum (-1) },
      { name := "in", typeName := "VipsImage" }]
  members := [⟨none, some "", 0⟩, ⟨some "", none, -1⟩]

/-- Nothing is said of parent, nickname and description. -/
def unsaid : Snapshot := ⟨[sundryType]⟩

/-- Parent, nickname and description are empty. -/
def saidEmpty : Snapshot :=
  ⟨[{ sundryType with parent := some "", nickname := some "", description := some "" }]⟩

/-- The quick reading keeps their doubles as well. -/
theorem parse?_render_injective_unsaid :
    Reading.nearest.ReadsBack ∧ unsaid.KeptBy .quick ∧ saidEmpty.KeptBy .quick ∧
      (parseBy? .nearest unsaid.render = some unsaid ∧
        parseBy? .nearest saidEmpty.render = some saidEmpty) ∧
      unsaid.render ≠ saidEmpty.render ∧
      (parseBy? .nearest saidEmpty.render).map load = some saidEmpty.load ∧
      saidEmpty.load = .error (.unknownParent "VipsSundry" "") := by
  have hr := Reading.readsBack_nearest
  have hunsaid : unsaid.hasFiniteDoubles := by decide
  have hempty : saidEmpty.hasFiniteDoubles := by decide
  obtain ⟨hback, hinjective, hread⟩ := parse?_render_injective .nearest
  have hunsaid' := (hback hr unsaid hunsaid).1
  refine ⟨hr, by decide +kernel, by decide +kernel,
    ⟨(hread unsaid.render unsaid hunsaid').2 hr, (hback hr saidEmpty hempty).1⟩, ?_,
    (hback hr saidEmpty hempty).2, rfl⟩
  intro heq
  have hne : unsaid ≠ saidEmpty := by decide
  exact hne (hinjective hr unsaid saidEmpty hunsaid hempty heq)

end Snapshot

end OpCatalog
