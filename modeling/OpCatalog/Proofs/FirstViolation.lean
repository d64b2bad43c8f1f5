import OpCatalog.Catalog.Validity
import OpCatalog.Proofs.InTurn

/-!
# The first violation

A check of a catalogue stops at the first thing that is wrong and remembers only the names that it
has seen. Here the rules are stated of the catalogue as a whole, and what breaks them is listed in
the order of the document. `check_first_violation` says that the check accepts exactly the
catalogues that keep all the rules, and reports the first entry of the list of any other.
-/
namespace OpCatalog

namespace Double

def negativeZero : Double := ⟨0x8000000000000000⟩

theorem isZero_iff {x : Double} : x.isZero = true ↔ x = .zero ∨ x = .negativeZero := by
  constructor
  · intro h
    have hm : x.magnitude = 0 := by simpa [isZero] using h
    have hx := x.ofMagnitude_magnitude
    rw [hm] at hx
    cases hn : x.isNegative with
    | false => exact Or.inl (by rw [← hx, hn]; rfl)
    | true => exact Or.inr (by rw [← hx, hn]; rfl)
  · rintro (rfl | rfl)
    · rfl
    · rfl

end Double

/-! ## The rules -/

namespace Argument

/-- Neither default nor limit says anything. -/
def HasNoBounds (a : Argument) : Prop :=
  ∀ x ∈ [a.bounds.default, a.bounds.min, a.bounds.max], x = .zero ∨ x = .negativeZero

/-- Bounds are given for a kind that is not numeric. -/
def IsStray (a : Argument) : Prop := a.kind ∉ [.double, .int, .bool, .enum] ∧ ¬a.HasNoBounds

/-- The name of an enumerated type is given where the kind asks for one and nowhere else. -/
def NamesAsAsked (a : Argument) : Prop :=
  (∃ name, a.enumType = some name ∧ name ≠ "") ↔ a.kind = .enum ∨ a.kind = .flags

end Argument

/-- A catalogue that keeps all the rules. -/
structure Catalog.Valid (c : Catalog) (sentinel : String) : Prop where
  nodup_names : (c.operations.map (·.name)).Nodup
  category_ne : ∀ op ∈ c.operations, op.category ≠ ""
  nodup_arguments : ∀ op ∈ c.operations, (op.arguments.map (·.name)).Nodup
  bounds_zero : ∀ op ∈ c.operations, ∀ a ∈ op.arguments,
    a.kind ∉ [.double, .int, .bool, .enum] → a.HasNoBounds
  names_asked : ∀ op ∈ c.operations, ∀ a ∈ op.arguments, a.NamesAsAsked
  nick_ne : ∀ e ∈ c.enums, ∀ m ∈ e.members, m.nick ≠ sentinel

namespace Argument

theorem hasNoBounds_iff {a : Argument} : a.HasNoBounds ↔ a.bounds.isZero = true := by
  simp [HasNoBounds, Bounds.isZero, Double.isZero_iff, and_assoc]

theorem isStray_iff {a : Argument} :
    a.IsStray ↔ (!a.kind.isNumeric && !a.bounds.isZero) = true := by
  rw [IsStray, hasNoBounds_iff]
  cases a.kind <;> simp [Kind.isNumeric]

instance (a : Argument) : Decidable a.IsStray := decidable_of_iff _ isStray_iff.symm

theorem namesAsAsked_iff {a : Argument} : a.NamesAsAsked ↔ a.kind.namesEnum = a.hasEnumName := by
  have hname : (∃ name, a.enumType = some name ∧ name ≠ "") ↔ a.hasEnumName = true := by
    simp [hasEnumName, Option.any_eq_true]
  have hkind : (a.kind = .enum ∨ a.kind = .flags) ↔ a.kind.namesEnum = true := by
    cases a.kind <;> simp [Kind.namesEnum]
  rw [NamesAsAsked, hname, hkind, ← Bool.eq_iff_iff]
  exact eq_comm

instance (a : Argument) : Decidable a.NamesAsAsked := decidable_of_iff _ namesAsAsked_iff.symm

/-! ## What breaks them -/

/-- What is wrong with an argument of an operation, given the arguments before it. -/
def violations (operation : String) (before : List Argument) (a : Argument) : List Violation :=
  (if a.name ∈ before.map (·.name) then [.duplicateArgument operation a.name] else []) ++
    ((if a.IsStray then [.strayBounds operation a.name a.kind] else []) ++
      if ¬a.NamesAsAsked then [.enumNameMismatch operation a.name] else [])

end Argument

/-- What is wrong with an operation, given the operations before it. -/
def Operation.violations (before : List Operation) (op : Operation) : List Violation :=
  (if op.name ∈ before.map (·.name) then [.duplicateOperation op.name] else []) ++
    ((if op.category = "" then [.emptyCategory op.name] else []) ++
      reports (Argument.violations op.name) [] op.arguments)

def EnumType.violations (sentinel : String) (e : EnumType) : List Violation :=
  (e.members.filter (·.nick == sentinel)).map fun m => .sentinelMember e.name m.nick

/-- Everything that is wrong with a catalogue, in the order of the document. -/
def Catalog.violations (c : Catalog) (sentinel : String) : List Violation :=
  reports Operation.violations [] c.operations ++ c.enums.flatMap (EnumType.violations sentinel)

theorem Argument.violations_eq_nil_iff {operation : String} {before : List Argument}
    {a : Argument} : a.violations operation before = [] ↔
      a.name ∉ before.map (·.name) ∧ ¬a.IsStray ∧ a.NamesAsAsked := by
  simp only [Argument.violations, List.append_eq_nil_iff, ite_singleton_eq_nil_iff, not_not]

theorem Operation.violations_eq_nil_iff {before : List Operation} {op : Operation} :
    op.violations before = [] ↔
      op.name ∉ before.map (·.name) ∧ op.category ≠ "" ∧ (op.arguments.map (·.name)).Nodup ∧
        ∀ a ∈ op.arguments, ¬a.IsStray ∧ a.NamesAsAsked := by
  simp only [Operation.violations, List.append_eq_nil_iff, ite_singleton_eq_nil_iff,
    reports_eq_nil_iff, List.nil_append, Argument.violations_eq_nil_iff, inTurn_and,
    inTurn_fresh_iff_nodup, inTurn_iff_forall_mem, ne_eq, forall_and]

theorem EnumType.violations_eq_nil_iff {sentinel : String} {e : EnumType} :
    e.violations sentinel = [] ↔ ∀ m ∈ e.members, m.nick ≠ sentinel := by
  simp [EnumType.violations, List.filter_eq_nil_iff]

theorem Catalog.violations_eq_nil_iff {c : Catalog} {sentinel : String} :
    c.violations sentinel = [] ↔ c.Valid sentinel := by
  simp only [Catalog.violations, List.append_eq_nil_iff, reports_eq_nil_iff, List.nil_append,
    Operation.violations_eq_nil_iff, List.flatMap_eq_nil_iff, EnumType.violations_eq_nil_iff,
    inTurn_and, inTurn_fresh_iff_nodup, inTurn_iff_forall_mem]
  constructor
  · rintro ⟨⟨hnames, hcategory, harguments, hrules⟩, henums⟩
    refine ⟨hnames, hcategory, harguments, ?_, fun op hop a ha => (hrules op hop a ha).2, henums⟩
    intro op hop a ha hkind
    by_contra hbounds
    exact (hrules op hop a ha).1 ⟨hkind, hbounds⟩
  · intro h
    refine ⟨⟨h.nodup_names, h.category_ne, h.nodup_arguments, ?_⟩, h.nick_ne⟩
    intro op hop a ha
    exact ⟨fun hstray => hstray.2 (h.bounds_zero op hop a ha hstray.1), h.names_asked op hop a ha⟩

/-! ## The check -/

/-- A check may keep the names that it has seen in any order. -/
theorem mem_seen_cons {α : Type} {key : α → String} {seen : List String} {before : List α}
    (hseen : ∀ n, n ∈ seen ↔ n ∈ before.map key) (a : α) (n : String) :
    n ∈ key a :: seen ↔ n ∈ (before ++ [a]).map key := by
  rw [List.mem_cons, hseen, List.map_append, List.mem_append, List.map_singleton,
    List.mem_singleton]
  exact Or.comm

namespace Catalog

theorem checkArguments_eq_firstOf (operation : String) {seen : List String}
    {before args : List Argument} (hseen : ∀ n, n ∈ seen ↔ n ∈ before.map (·.name)) :
    checkArguments operation seen args =
      firstOf (reports (Argument.violations operation) before args) := by
  induction args generalizing seen before with
  | nil => rfl
  | cons a args ih =>
    have hnext := mem_seen_cons hseen a
    rw [checkArguments, reports, Argument.violations, List.append_assoc, List.append_assoc,
      firstOf_ite_append, firstOf_ite_append, firstOf_ite_append]
    refine if_congr ?_ rfl (if_congr Argument.isStray_iff.symm rfl (if_congr ?_ rfl (ih hnext)))
    · rw [List.contains_iff_mem, hseen]
    · rw [Argument.namesAsAsked_iff, bne_iff_ne, ne_eq]

theorem checkOperations_eq_firstOf {seen : List String} {before ops : List Operation}
    (hseen : ∀ n, n ∈ seen ↔ n ∈ before.map (·.name)) :
    checkOperations seen ops = firstOf (reports Operation.violations before ops) := by
  induction ops generalizing seen before with
  | nil => rfl
  | cons op ops ih =>
    have hnext := mem_seen_cons hseen op
    have hargs : checkArguments op.name [] op.arguments =
        firstOf (reports (Argument.violations op.name) [] op.arguments) :=
      checkArguments_eq_firstOf op.name (by simp)
    rw [checkOperations, reports, Operation.violations, List.append_assoc, List.append_assoc,
      firstOf_ite_append, firstOf_ite_append, firstOf_append, hargs, ih hnext]
    refine if_congr ?_ rfl (if_congr ?_ rfl ?_)
    · rw [List.contains_iff_mem, hseen]
    · simp
    · cases firstOf (reports (Argument.violations op.name) [] op.arguments) <;> rfl

theorem checkEnums_eq_firstOf (sentinel : String) (es : List EnumType) :
    checkEnums sentinel es = firstOf (es.flatMap (EnumType.violations sentinel)) := by
  induction es with
  | nil => rfl
  | cons e es ih =>
    have hfind : e.byNick? sentinel = (e.members.filter (·.nick == sentinel)).head? :=
      List.head?_filter.symm
    rw [checkEnums, List.flatMap_cons, firstOf_append, ← ih, EnumType.violations, hfind]
    cases e.members.filter (·.nick == sentinel) <;> rfl

/-- A check accepts a catalogue exactly if it keeps all the rules, and otherwise reports what
breaks them first in the order of the document. -/
theorem check_first_violation (c : Catalog) (sentinel : String) :
    (c.check sentinel = .ok () ↔ c.Valid sentinel) ∧
      ∀ v, c.check sentinel = .error v ↔ (c.violations sentinel).head? = some v := by
  have hcheck : c.check sentinel = firstOf (c.violations sentinel) := by
    have hoperations : checkOperations [] c.operations =
        firstOf (reports Operation.violations [] c.operations) :=
      checkOperations_eq_firstOf (by simp)
    rw [check, violations, firstOf_append, hoperations, checkEnums_eq_firstOf]
    cases firstOf (reports Operation.violations [] c.operations) <;> rfl
  rw [hcheck, ← violations_eq_nil_iff]
  exact ⟨firstOf_eq_ok_iff, fun v => firstOf_eq_error_iff⟩

/-- An operation that repeats a name and has no category breaks two rules and is reported once. -/
example :
    violations { operations := [⟨"abs", "", "arithmetic", []⟩, ⟨"abs", "", "", []⟩] } "last" =
        [.duplicateOperation "abs", .emptyCategory "abs"] ∧
      check { operations := [⟨"abs", "", "arithmetic", []⟩, ⟨"abs", "", "", []⟩] } "last" =
        .error (.duplicateOperation "abs") :=
  ⟨by decide, rfl⟩

end Catalog

end OpCatalog
