import OpCatalog.Proofs.CatalogText
import OpCatalog.Proofs.Validity

/-!
# Texts of discovered catalogues

Bounds are taken over from the parameters as they are, so a discovered catalogue is read back from
its text exactly as long as the numeral of each bound is read back. An infinite bound has none, and
only a parameter that is specified with doubles can have one; whether the numeral of a finite bound
is read back is up to the reading. The quick one can fail only where a parameter is specified with a
double of many digits: bounds that come of integers are read back by it as well.
-/
namespace OpCatalog

namespace ParamValue

/-- The doubles that are specified are finite. -/
def isFinite : ParamValue → Bool
  | .double default minimum maximum => default.isFinite && minimum.isFinite && maximum.isFinite
  | _ => true

theorem isFinite_ofInt32 (n : Int32) : (Double.ofInt n.toInt).isFinite = true := by
  have hlow := n.le_toInt
  have hhigh := n.toInt_lt
  exact Double.isFinite_ofInt (by omega)

theorem isFinite_ofUInt32 (n : UInt32) : (Double.ofInt n.toNat).isFinite = true := by
  have hhigh := n.toNat_lt
  exact Double.isFinite_ofInt (by omega)

/-- Only doubles, and only those of numeric arguments, can make a bound infinite. -/
theorem isFinite_bounds (kind : Kind) (value : ParamValue) :
    (value.bounds kind).isFinite = (!kind.isNumeric || value.isFinite) := by
  cases hk : kind.isNumeric with
  | false =>
    simp only [bounds, hk, Bool.false_eq_true, if_false]
    rfl
  | true =>
    simp only [bounds, hk, if_true, Bool.not_true, Bool.false_or]
    cases value with
    | double default minimum maximum => rfl
    | int default minimum maximum => simp [Bounds.isFinite, isFinite_ofInt32, isFinite]
    | uint default minimum maximum => simp [Bounds.isFinite, isFinite_ofUInt32, isFinite]
    | boolean default => cases default <;> rfl
    | enum default =>
      have hzero : Double.zero.isFinite = true := rfl
      simp [Bounds.isFinite, isFinite_ofInt32, isFinite, hzero]
    | other => rfl

/-- The doubles that are specified have brief numerals. -/
def isBrief : ParamValue → Bool
  | .double default minimum maximum => default.isBrief && minimum.isBrief && maximum.isBrief
  | _ => true

theorem isBrief_ofInt32 (n : Int32) : (Double.ofInt n.toInt).isBrief = true := by
  have hlow := n.le_toInt
  have hhigh := n.toInt_lt
  exact Double.isBrief_ofInt (by omega)

theorem isBrief_ofUInt32 (n : UInt32) : (Double.ofInt n.toNat).isBrief = true := by
  have hhigh := n.toNat_lt
  exact Double.isBrief_ofInt (by omega)

/-- Bounds that come of integers are brief. -/
theorem isBrief_bounds (kind : Kind) {value : ParamValue} (h : value.isBrief = true) :
    (value.bounds kind).isBrief = true := by
  have hzero : Double.zero.isBrief = true := by decide +kernel
  have hone : Double.one.isBrief = true := by decide +kernel
  have hnone : Bounds.zero.isBrief = true := by decide +kernel
  cases hk : kind.isNumeric with
  | false => simpa only [bounds, hk, Bool.false_eq_true, if_false] using hnone
  | true =>
    simp only [bounds, hk, if_true]
    cases value with
    | double default minimum maximum => exact h
    | int default minimum maximum => simp [Bounds.isBrief, isBrief_ofInt32]
    | uint default minimum maximum => simp [Bounds.isBrief, isBrief_ofUInt32]
    | boolean default => cases default <;> simp [Bounds.isBrief, hzero, hone]
    | enum default => simp [Bounds.isBrief, isBrief_ofInt32, hzero]
    | other => exact hnone

end ParamValue

/-- Every double that a registered type specifies is finite. -/
def Forest.HasFiniteDoubles (f : Forest) : Prop :=
  ∀ e ∈ f.entries, ∀ spec ∈ e.parameters, spec.value.isFinite

/-- Every double that a registered type specifies has a brief numeral. -/
def Forest.HasBriefDoubles (f : Forest) : Prop :=
  ∀ e ∈ f.entries, ∀ spec ∈ e.parameters, spec.value.isBrief

namespace Forest

variable {f : Forest}

/-- What a forest offers is among the parameters of some registered type. -/
theorem exists_mem_of_offers {spec : ParamSpec} (h : f.registry.Offers spec) :
    ∃ e ∈ f.entries, spec ∈ e.parameters := by
  obtain ⟨t, p, object, p', hobject, hspec⟩ := h
  have htype := (parameters_of_instantiate hobject).2
  simp only [registry, htype] at hspec
  obtain ⟨e, he, hmem⟩ := List.mem_flatMap.1 hspec
  obtain ⟨u, hu⟩ := exists_entry?_of_mem_lineageFrom (List.mem_reverse.1 he)
  exact ⟨e, mem_entries_of_some hu, hmem⟩

end Forest

theorem Registry.isFinite_classify_iff {σ : Type} (reg : Registry σ) (spec : ParamSpec) :
    (reg.classify spec).bounds.isFinite ↔
      ((reg.classify spec).kind.isNumeric → spec.value.isFinite) := by
  simp only [classify, ParamValue.isFinite_bounds]
  cases (reg.kindOf spec.valueType).isNumeric <;> simp

namespace Host

/-- A discovered catalogue is read back from its texts exactly if the reading keeps all its bounds,
and nothing is read if one of them is not finite. The bounds are finite as long as the numeric
arguments come of finite doubles, and certainly if no other doubles are registered. With a reading
that keeps all finite doubles this is all that matters, and with the quick one it is enough if the
doubles that are registered have brief numerals as well. -/
theorem parse?_render_of_introspect {h : Host} {s : Settings} {c : Catalog} (r : Reading)
    (found : (h.world.introspect h.forest.registry s).1 = .ok c) :
    ((Catalog.parseBy? r (c.render .compact) = some c ↔ c.KeptBy r) ∧
      (Catalog.parseBy? r (c.render .pretty) = some c ↔ c.KeptBy r)) ∧
    (¬c.hasFiniteBounds → Catalog.parseBy? r (c.render .compact) = none ∧
      Catalog.parseBy? r (c.render .pretty) = none) ∧
    (c.hasFiniteBounds ↔ ∀ op ∈ c.operations, ∀ a ∈ op.arguments, ∃ spec,
      h.forest.registry.Offers spec ∧ a = h.forest.registry.classify spec ∧
        (a.kind.isNumeric → spec.value.isFinite)) ∧
    (h.forest.HasFiniteDoubles → c.hasFiniteBounds) ∧
    (r.ReadsBack → (c.KeptBy r ↔ c.hasFiniteBounds)) ∧
    (h.forest.HasFiniteDoubles → h.forest.HasBriefDoubles → c.KeptBy .quick) := by
  have hoffers : ∀ op ∈ c.operations, ∀ a ∈ op.arguments, ∃ spec,
      h.forest.registry.Offers spec ∧ a = h.forest.registry.classify spec :=
    fun op hop a ha => World.exists_offers_of_introspect found hop ha
  have hiff : c.hasFiniteBounds ↔ ∀ op ∈ c.operations, ∀ a ∈ op.arguments, ∃ spec,
      h.forest.registry.Offers spec ∧ a = h.forest.registry.classify spec ∧
        (a.kind.isNumeric → spec.value.isFinite) := by
    rw [Catalog.hasFiniteBounds_iff]
    refine forall₄_congr fun op hop a ha => ?_
    constructor
    · intro hfinite
      obtain ⟨spec, hspec, rfl⟩ := hoffers op hop a ha
      exact ⟨spec, hspec, rfl, (Registry.isFinite_classify_iff _ spec).1 hfinite⟩
    · rintro ⟨spec, -, rfl, hfinite⟩
      exact (Registry.isFinite_classify_iff _ spec).2 hfinite
  have hmade : ∀ op ∈ c.operations, ∀ a ∈ op.arguments, ∃ spec,
      a = h.forest.registry.classify spec ∧ ∃ e ∈ h.forest.entries, spec ∈ e.parameters := by
    intro op hop a ha
    obtain ⟨spec, hspec, heq⟩ := hoffers op hop a ha
    exact ⟨spec, heq, Forest.exists_mem_of_offers hspec⟩
  have hfinite : h.forest.HasFiniteDoubles → c.hasFiniteBounds := by
    intro hf
    rw [Catalog.hasFiniteBounds_iff]
    intro op hop a ha
    obtain ⟨spec, rfl, e, he, hmem⟩ := hmade op hop a ha
    exact (Registry.isFinite_classify_iff _ spec).2 fun _ => hf e he spec hmem
  rw [Catalog.parseBy?_render Json.Layout.blank_compact,
    Catalog.parseBy?_render Json.Layout.blank_pretty]
  refine ⟨⟨Catalog.again?_eq_self_iff, Catalog.again?_eq_self_iff⟩, ?_, hiff, hfinite, ?_, ?_⟩
  · intro hc
    have hnone : c.again? r = none := Option.eq_none_iff_forall_ne_some.2 fun c' hread =>
      hc (Catalog.hasFiniteBounds_of_again? hread)
    exact ⟨hnone, hnone⟩
  · intro hr
    exact ⟨fun hkept => hkept.hasFiniteBounds, Catalog.keptBy_of_readsBack hr⟩
  · intro hf hbrief op hop a ha
    have hbounds := Catalog.hasFiniteBounds_iff.1 (hfinite hf) op hop a ha
    obtain ⟨spec, rfl, e, he, hmem⟩ := hmade op hop a ha
    exact Bounds.keptBy_quick hbounds (ParamValue.isBrief_bounds _ (hbrief e he spec hmem))

/-- One operation, which scales by a factor of at most `maximum`. -/
def scaling (maximum : Double) : Host :=
  (standard.registerAll
    [((TypeDefinition.named "VipsScale").withParent "VipsOperation").withNickname "scale"
      |>.addArgument
        { name := "factor", typeName := "gdouble", flags := ParamFlag.requiredInput,
          value := .double .one .zero maximum }]).2

/-- A factor that is bounded by one. -/
theorem parse?_render_of_introspect_scaling :
    ∃ c, ((scaling .one).world.introspect (scaling .one).forest.registry {}).1 = .ok c ∧
      c.operations.map (·.name) = ["scale"] ∧ c.hasFiniteBounds ∧
      Catalog.parse? (c.render .compact) = some c ∧ Catalog.parse? (c.render .pretty) = some c := by
  have found : ((scaling .one).world.introspect (scaling .one).forest.registry {}).1 = .ok _ := rfl
  have hfinite : ∀ e ∈ (scaling .one).forest.entries,
      ∀ spec ∈ e.parameters, spec.value.isFinite := by decide
  have hbrief : ∀ e ∈ (scaling .one).forest.entries,
      ∀ spec ∈ e.parameters, spec.value.isBrief := by decide +kernel
  obtain ⟨⟨hcompact, hpretty⟩, -, -, hall, -, hquick⟩ := parse?_render_of_introspect .quick found
  have hkept := hquick hfinite hbrief
  exact ⟨_, found, rfl, hall hfinite, hcompact.2 hkept, hpretty.2 hkept⟩

/-- A factor without an upper bound is discovered, but the catalogue is not read back. -/
theorem exists_introspect_unbounded :
    (Double.ofMagnitude false Double.infinity).isNaN = false ∧
    ∃ c, ((scaling (.ofMagnitude false Double.infinity)).world.introspect
        (scaling (.ofMagnitude false Double.infinity)).forest.registry {}).1 = .ok c ∧
      Catalog.parse? (c.render .compact) = none ∧ Catalog.parse? (c.render .pretty) = none := by
  refine ⟨rfl, _, rfl, ?_, ?_⟩
  · rw [Catalog.parse?, Catalog.parseBy?_render Json.Layout.blank_compact]
    rfl
  · rw [Catalog.parse?, Catalog.parseBy?_render Json.Layout.blank_pretty]
    rfl

/-- The greatest number of single precision, `3.4028234663852886e38`. -/
def singleMax : Double := ⟨0x47efffffe0000000⟩

/-- A factor of at most the greatest number of single precision is discovered, but what is read
back has the next greater double for it. -/
theorem exists_introspect_misread :
    Reading.quick.again? singleMax = some ⟨singleMax.bits + 1⟩ ∧
    ∃ c, ((scaling singleMax).world.introspect (scaling singleMax).forest.registry {}).1 = .ok c ∧
      Catalog.parse? (c.render .compact) ≠ some c ∧
      Catalog.parse? (c.render .pretty) ≠ some c := by
  have found : ((scaling singleMax).world.introspect
    (scaling singleMax).forest.registry {}).1 = .ok _ := rfl
  refine ⟨by decide +kernel, _, found, ?_, ?_⟩
  · rw [Catalog.parse?, Catalog.parseBy?_render Json.Layout.blank_compact, Ne,
      Catalog.again?_eq_self_iff]
    decide +kernel
  · rw [Catalog.parse?, Catalog.parseBy?_render Json.Layout.blank_pretty, Ne,
      Catalog.again?_eq_self_iff]
    decide +kernel

end Host

end OpCatalog
