import OpCatalog.Proofs.Alike

/-!
# Where the operation limit fires

The limit is looked at before a type is inspected, so it counts the objects that have been made
so far and not the operations that the catalogue ends up with: a type that is then passed over
can still cross it, and so can one whose nickname is taken. `introspect_limited` says exactly
when it fires.
-/
namespace OpCatalog

/-- The settings without the limit on operations. -/
def Settings.withoutOperationLimit (s : Settings) : Settings :=
  { s with limits := { s.limits with operations := none } }

namespace Forest

variable {f : Forest} {s : Settings} {t base : TypeHandle} {n found : Nat}
  {ts : List TypeHandle} {p after : Process} {ops : List Operation}

/-- The types of a list that are inspected, whether they can be instantiated or not. -/
def inspected (f : Forest) (ts : List TypeHandle) : List TypeHandle :=
  ts.filter fun t => (f.registry.operationName? t).isSome

/-- The objects that have been made before the last of the types is inspected. -/
def madeBeforeLast (f : Forest) (ts : List TypeHandle) : Nat :=
  (f.inspected ts).dropLast.countP f.isInstantiable

theorem inspected_cons_of_unnamed (h : f.registry.operationName? t = none) :
    f.inspected (t :: ts) = f.inspected ts :=
  List.filter_cons_of_neg (by simp [h])

theorem inspected_cons_of_named {name : String} (h : f.registry.operationName? t = some name) :
    f.inspected (t :: ts) = t :: f.inspected ts :=
  List.filter_cons_of_pos (by simp [h])

/-- There is room for every type that is inspected after `found` operations. -/
def HasRoom (f : Forest) (n found : Nat) (ts : List TypeHandle) : Prop :=
  f.inspected ts = [] ∨ found + f.madeBeforeLast ts < n

theorem hasRoom_cons_of_unnamed (h : f.registry.operationName? t = none) :
    f.HasRoom n found (t :: ts) ↔ f.HasRoom n found ts := by
  rw [HasRoom, HasRoom, madeBeforeLast, madeBeforeLast, inspected_cons_of_unnamed h]

/-- The types that follow are counted on from what has been made. -/
theorem hasRoom_cons_of_named {name : String} (h : f.registry.operationName? t = some name) :
    f.HasRoom n found (t :: ts) ↔
      found < n ∧ f.HasRoom n (if f.isInstantiable t then found + 1 else found) ts := by
  rw [HasRoom, HasRoom, madeBeforeLast, madeBeforeLast, inspected_cons_of_named h]
  cases hrest : f.inspected ts with
  | nil => simp
  | cons u us =>
    rw [List.dropLast_cons_cons, List.countP_cons]
    by_cases hi : f.isInstantiable t
    · simp only [hi, if_true, reduceCtorEq, false_or]
      omega
    · simp only [hi, if_false, Bool.false_eq_true, reduceCtorEq, false_or]
      omega

/-- Under a limit, types are collected as without it if there is room for all of them, and
otherwise the limit fires. -/
theorem collect_limited (limited : s.limits.operations = some n)
    (h : f.registry.Collects s.withoutOperationLimit found ts p ops after) :
    (f.HasRoom n found ts → (f.registry.collect s found ts p).1 = .ok ops) ∧
      (¬f.HasRoom n found ts → (f.registry.collect s found ts p).1 =
        .error (.limitExceeded .operations s.baseType n)) := by
  have hroots : s.withoutOperationLimit.rootTypes = s.rootTypes := rfl
  have harguments : s.withoutOperationLimit.limits.arguments = s.limits.arguments := rfl
  induction h with
  | nil => exact ⟨fun _ => rfl, fun hfull => absurd (Or.inl rfl) hfull⟩
  | unnamed hname _ ih =>
    rw [hasRoom_cons_of_unnamed hname, Registry.collect_cons, hname]
    exact ih
  | @refused found t ts _ p p' _ _ hname _ hi _ ih =>
    have hnot : f.isInstantiable t = false := (isSome_of_inspect hi).symm
    rw [hroots, harguments] at hi
    rw [hasRoom_cons_of_named hname, hnot, Registry.collect_cons, hname]
    simp only [limited, Option.any_some, decide_eq_true_eq, Option.getD_some, hi,
      Bool.false_eq_true, if_false]
    by_cases hlt : found < n
    · rw [if_neg (Nat.not_le.2 hlt), and_iff_right hlt]
      exact ih
    · rw [if_pos (Nat.not_lt.1 hlt)]
      exact ⟨fun hroom => absurd hroom.1 hlt, fun _ => rfl⟩
  | @inspected found t ts _ op p p' _ ops hname _ hi _ ih =>
    have hmade : f.isInstantiable t = true := (isSome_of_inspect hi).symm
    rw [hroots, harguments] at hi
    rw [hasRoom_cons_of_named hname, hmade, Registry.collect_cons, hname]
    simp only [limited, Option.any_some, decide_eq_true_eq, Option.getD_some, hi, if_true]
    by_cases hlt : found < n
    · rw [if_neg (Nat.not_le.2 hlt), and_iff_right hlt]
      exact ⟨fun hroom => map_eq_ok_iff.2 ⟨ops, ih.1 hroom, rfl⟩,
        fun hfull => map_eq_error_iff.2 (ih.2 hfull)⟩
    · rw [if_pos (Nat.not_lt.1 hlt)]
      exact ⟨fun hroom => absurd hroom.1 hlt, fun _ => rfl⟩

/-- Before anything is found, there is room as long as the limit is not reached too early. -/
theorem hasRoom_zero_iff (hn : 0 < n) : f.HasRoom n 0 ts ↔ f.madeBeforeLast ts < n := by
  rw [HasRoom, Nat.zero_add]
  refine or_iff_right_of_imp fun hnil => ?_
  rw [madeBeforeLast, hnil]
  exact hn

theorem catalog_limited (limited : s.limits.operations = some n) (hn : 0 < n) {c : Catalog}
    (h : (f.registry.catalog s.withoutOperationLimit p).1 = .ok c)
    (registered : f.lookup? s.baseType = some base) :
    (f.madeBeforeLast (f.subtypes base) < n → (f.registry.catalog s p).1 = .ok c) ∧
      (n ≤ f.madeBeforeLast (f.subtypes base) →
        (f.registry.catalog s p).1 = .error (.limitExceeded .operations s.baseType n)) := by
  have hlookup : f.registry.lookup? s.baseType = some base := registered
  obtain ⟨hops, henums⟩ := Registry.ok_of_catalog h
  obtain ⟨base', ops, hbase, hcollect, ho⟩ := Registry.ok_of_operations hops
  cases hlookup.symm.trans hbase
  have hsteps := Registry.collects_of_collect hcollect
  obtain ⟨hroom, hfull⟩ := collect_limited limited hsteps
  rw [hasRoom_zero_iff hn] at hroom hfull
  simp only [Registry.catalog, Registry.operations, hlookup]
  rcases hc : f.registry.collect s 0 (f.registry.subtypes base) p with ⟨result, p'⟩
  rw [hc] at hroom hfull
  constructor
  · intro hlt
    cases hroom hlt
    have harrange : s.arrange ops = c.operations := ho.symm
    have hresolved : f.registry.resolveEnums s.sentinel s.limits.enumMembers
        (referencedEnums c.operations) = .ok c.enums := henums
    simp only [Except.map, harrange, hresolved]
  · intro hle
    cases hfull (Nat.not_lt.2 hle)
    rfl

/-! ## Where nothing is passed over -/

/-- As many objects are made as there are types inspected. -/
theorem length_operations (hmade : ∀ t ∈ f.inspected ts, f.isInstantiable t)
    (rootNames : List String) :
    (ts.filterMap (f.operation? rootNames)).length = (f.inspected ts).length := by
  induction ts with
  | nil => rfl
  | cons t ts ih =>
    cases hname : f.registry.operationName? t with
    | none =>
      rw [inspected_cons_of_unnamed hname] at hmade ⊢
      rw [List.filterMap_cons, operation?_of_unnamed hname]
      exact ih hmade
    | some name =>
      rw [inspected_cons_of_named hname] at hmade ⊢
      rw [List.filterMap_cons, operation?_of_named hname, if_pos (hmade t List.mem_cons_self)]
      exact congrArg (· + 1) (ih fun u hu => hmade u (List.mem_cons_of_mem t hu))

theorem madeBeforeLast_lt_iff (hn : 0 < n) (hmade : ∀ t ∈ f.inspected ts, f.isInstantiable t) :
    f.madeBeforeLast ts < n ↔ (f.inspected ts).length ≤ n := by
  have hall : (f.inspected ts).dropLast.countP f.isInstantiable =
      (f.inspected ts).dropLast.length :=
    List.countP_eq_length.2 fun t ht => hmade t (List.dropLast_subset _ ht)
  rw [madeBeforeLast, hall, List.length_dropLast]
  omega

end Forest

namespace Host

variable {h : Host} {s : Settings} {n : Nat} {c : Catalog}

/-- A limit on operations leaves the catalogue as it is as long as fewer objects than it allows
are made before the last type is inspected, and fires otherwise. Where every type inspected can
be instantiated and none shares a nickname, this is to say that the operations are no more than
the limit. -/
theorem introspect_limited (grown : h.forest.Grown) (valid : s.fault? = none)
    (limited : s.limits.operations = some n)
    (unlimited : (h.world.introspect h.forest.registry s.withoutOperationLimit).1 = .ok c) :
    ∃ base, h.forest.lookup? s.baseType = some base ∧
      (h.forest.madeBeforeLast (h.forest.subtypes base) < n →
        (h.world.introspect h.forest.registry s).1 = .ok c) ∧
      (n ≤ h.forest.madeBeforeLast (h.forest.subtypes base) →
        (h.world.introspect h.forest.registry s).1 =
          .error (.limitExceeded .operations s.baseType n)) ∧
      ((∀ t ∈ h.forest.inspected (h.forest.subtypes base), h.forest.isInstantiable t) →
        h.forest.Unshared base →
        ((h.world.introspect h.forest.registry s).1 = .ok c ↔ c.operations.length ≤ n)) := by
  have hn : 0 < n := by
    obtain ⟨-, -, -, hlimits, -⟩ := Settings.fault?_eq_none_iff.1 valid
    refine Nat.pos_of_ne_zero fun hzero => hlimits .operations (by decide) ?_
    rw [← hzero]
    exact limited
  obtain ⟨-, started, hc⟩ := World.introspect_eq_ok_iff.1 unlimited
  obtain ⟨base, registered, rfl⟩ := Forest.ok_of_introspect unlimited
  obtain ⟨hroom, hfull⟩ := Forest.catalog_limited limited hn hc registered
  rw [← World.introspect_of_started valid started] at hroom hfull
  refine ⟨base, registered, hroom, hfull, ?_⟩
  intro hmade hunshared
  have hbase := grown.wellFormed.isSome_entry?_of_lookup? registered
  have hnodup := grown.wellFormed.nodup_operations hbase hunshared s.rootTypes
  have hlength : (h.forest.discovered s.withoutOperationLimit base).operations.length =
      (h.forest.inspected (h.forest.subtypes base)).length := by
    rw [← Forest.length_operations hmade s.rootTypes, ← congrArg List.length
      (firstOfEach_of_nodup hnodup fun op _ => List.not_mem_nil)]
    exact Settings.length_arrange _ _
  rw [hlength, ← Forest.madeBeforeLast_lt_iff hn hmade]
  constructor
  · intro hok
    refine Nat.lt_of_not_le fun hle => ?_
    rw [hfull hle] at hok
    cases hok
  · exact hroom

/-- Three objects are made for two operations, and the limit must leave room for all three. -/
theorem introspect_limited_sharing :
    ∃ c, (sharing.world.introspect sharing.forest.registry {}).1 = .ok c ∧
      c.operations.map (·.name) = ["add", "invert"] ∧
      sharing.forest.madeBeforeLast (sharing.forest.subtypes ⟨3⟩) = 2 ∧
      (sharing.world.introspect sharing.forest.registry { limits := { operations := some 3 } }).1 =
        .ok c := by
  have grown : sharing.forest.Grown := Forest.Grown.standard.registerAll sharingTypes
  have unlimited : (sharing.world.introspect sharing.forest.registry {}).1 = .ok _ := rfl
  have hmade : sharing.forest.madeBeforeLast (sharing.forest.subtypes ⟨3⟩) = 2 := rfl
  obtain ⟨base, registered, hroom, -⟩ :=
    introspect_limited (s := { limits := { operations := some 3 } }) (n := 3) grown rfl rfl
      unlimited
  cases (show sharing.forest.lookup? "VipsOperation" = some ⟨3⟩ from rfl).symm.trans registered
  exact ⟨_, unlimited, rfl, hmade, hroom (by rw [hmade]; decide)⟩

/-- An operation, and a type that is not abstract but cannot be instantiated. -/
def brokenLast : Host :=
  (standard.registerAll
    [((TypeDefinition.named "VipsBlack").withParent "VipsOperation").withNickname "black",
      (((TypeDefinition.named "VipsWhite").withParent "VipsOperation").withNickname
        "white").asBroken]).2

/-- A type that cannot be instantiated crosses a limit that the one operation does not, and so
does a type whose nickname is taken. -/
theorem exists_limit_not_crossed :
    (∃ c, (brokenLast.world.introspect brokenLast.forest.registry {}).1 = .ok c ∧
      c.operations.length ≤ 1 ∧
      (brokenLast.world.introspect brokenLast.forest.registry
        { limits := { operations := some 1 } }).1 =
          .error (.limitExceeded .operations "VipsOperation" 1)) ∧
    ∃ c, (sharing.world.introspect sharing.forest.registry {}).1 = .ok c ∧
      c.operations.length ≤ 2 ∧
      (sharing.world.introspect sharing.forest.registry
        { limits := { operations := some 2 } }).1 =
          .error (.limitExceeded .operations "VipsOperation" 2) :=
  ⟨⟨_, rfl, by decide, rfl⟩, ⟨_, rfl, by decide, rfl⟩⟩

end Host

end OpCatalog
