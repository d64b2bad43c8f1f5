import OpCatalog.Proofs.Arrangement
import OpCatalog.Proofs.Enumeration

/-!
# Raising limits

A limit decides whether there is a catalogue, never what is in it. A discovery that succeeds
has counted no further than its limits allow, so it takes the same steps when they are raised
or cleared, and nothing in its catalogue is more than they allow.
-/
namespace OpCatalog

/-- Each limit is kept, raised or cleared. -/
def Limits.RaisedTo (limits limits' : Limits) : Prop :=
  ∀ resource, Raised (limits.get resource) (limits'.get resource)

theorem Settings.fault?_of_raised {s : Settings} {limits : Limits}
    (raised : s.limits.RaisedTo limits) (valid : s.fault? = none) :
    Settings.fault? { s with limits := limits } = none := by
  obtain ⟨hbase, hsentinel, hroots, hlimits, hoverrides⟩ := fault?_eq_none_iff.1 valid
  refine fault?_eq_none_iff.2 ⟨hbase, hsentinel, hroots, ?_, hoverrides⟩
  intro resource hr hzero
  obtain ⟨n, hn, hle⟩ := raised resource 0 hzero
  rw [Nat.le_zero.1 hle] at hn
  exact hlimits resource hr hn

namespace Registry

variable {σ : Type} {reg : Registry σ} {s : Settings} {state after : σ} {limits : Limits}

theorem describeOperation_of_raised {limit limit' : Option Nat} (raised : Raised limit limit')
    {rootNames : List String} {t : TypeHandle} {name : String} {object : InstanceHandle}
    {op : Operation}
    (h : reg.describeOperation rootNames limit t name object state = .ok op) :
    reg.describeOperation rootNames limit' t name object state = .ok op := by
  rw [describeOperation_eq] at h ⊢
  split at h
  · next hfew => rwa [if_pos (raised.all hfew)]
  · cases h

theorem inspect_of_raised {limit limit' : Option Nat} (raised : Raised limit limit')
    {rootNames : List String} {t : TypeHandle} {name : String} {found : Option Operation}
    (h : reg.inspect rootNames limit t name state = (.ok found, after)) :
    reg.inspect rootNames limit' t name state = (.ok found, after) := by
  rw [inspect] at h ⊢
  rcases hi : reg.instantiate t state with ⟨_ | object, state'⟩
  · rwa [hi] at h
  · simp only [hi, Prod.mk.injEq] at h ⊢
    obtain ⟨hfound, hafter⟩ := h
    obtain ⟨op, hop, rfl⟩ := map_eq_ok_iff.1 hfound
    exact ⟨map_eq_ok_iff.2 ⟨op, describeOperation_of_raised raised hop, rfl⟩, hafter⟩

/-- A collection that succeeds takes the same steps under limits that are raised. -/
theorem Collects.raised (raised : s.limits.RaisedTo limits) {found : Nat} {ts : List TypeHandle}
    {ops : List Operation} (h : reg.Collects s found ts state ops after) :
    reg.Collects { s with limits := limits } found ts state ops after := by
  induction h with
  | nil => exact Collects.nil
  | unnamed hname _ ih => exact Collects.unnamed hname ih
  | refused hname hroom hi _ ih =>
    exact Collects.refused hname ((raised .operations).not_any hroom)
      (inspect_of_raised (raised .arguments) hi) ih
  | inspected hname hroom hi _ ih =>
    exact Collects.inspected hname ((raised .operations).not_any hroom)
      (inspect_of_raised (raised .arguments) hi) ih

/-- The operations collected, counted on from `found`, do not exceed the limit. -/
theorem Collects.all_length_le {found : Nat} {ts : List TypeHandle} {ops : List Operation}
    (h : reg.Collects s found ts state ops after) (hfound : s.limits.operations.all (found ≤ ·)) :
    s.limits.operations.all (found + ops.length ≤ ·) := by
  induction h with
  | nil => exact hfound
  | unnamed _ _ ih => exact ih hfound
  | refused _ _ _ _ ih => exact ih hfound
  | inspected _ hroom _ _ ih =>
    rw [List.length_cons, Nat.add_comm _ 1, ← Nat.add_assoc]
    exact ih (all_succ_of_not_any hroom)

theorem catalog_of_raised (raised : s.limits.RaisedTo limits) {c : Catalog}
    (h : (reg.catalog s state).1 = .ok c) :
    reg.catalog { s with limits := limits } state = reg.catalog s state := by
  obtain ⟨hops, henums⟩ := ok_of_catalog h
  obtain ⟨base, found, hbase, hcollect, -⟩ := ok_of_operations hops
  obtain ⟨after, hsteps⟩ : ∃ after, reg.Collects s 0 (reg.subtypes base) state found after :=
    ⟨_, collects_of_collect hcollect⟩
  have hsame : reg.operations { s with limits := limits } state = reg.operations s state := by
    simp only [operations, hbase, hsteps.collect_eq, (hsteps.raised raised).collect_eq]
    rfl
  have hresolved : reg.resolveEnums s.sentinel limits.enumMembers (referencedEnums c.operations) =
      .ok c.enums := by
    obtain ⟨heq, hall⟩ := resolveEnums_eq_ok_iff.1 henums
    exact resolveEnums_eq_ok_iff.2 ⟨heq, fun e he => (raised .enumMembers).all (hall e he)⟩
  rcases ho : reg.operations s state with ⟨e | ops, state'⟩
  · rw [ho] at hops
    cases hops
  · rw [ho] at hops
    cases hops
    simp only [catalog, hsame, ho, henums, hresolved]

end Registry

namespace World

variable {σ : Type} {reg : Registry σ} {s : Settings} {w : World σ} {c : Catalog}

theorem all_length_operations_le (h : (w.introspect reg s).1 = .ok c) :
    s.limits.operations.all (c.operations.length ≤ ·) := by
  obtain ⟨-, state, hc⟩ := ok_of_introspect h
  obtain ⟨base, found, -, hcollect, ho⟩ := Registry.ok_of_operations (Registry.ok_of_catalog hc).1
  have hlimit := (Registry.collects_of_collect hcollect).all_length_le (all_zero_le _)
  rw [Nat.zero_add] at hlimit
  refine all_le_of_le ?_ hlimit
  rw [ho, s.length_arrange]
  exact (firstOfEach_sublist _ _ _).length_le

theorem all_length_arguments_le (h : (w.introspect reg s).1 = .ok c) {op : Operation}
    (hop : op ∈ c.operations) : s.limits.arguments.all (op.arguments.length ≤ ·) := by
  obtain ⟨found, t, name, state, rfl, -, hi⟩ := exists_inspect_of_introspect h hop
  obtain ⟨-, -, -, -, hfew⟩ := Registry.ok_of_inspect hi
  rwa [(s.arguments_arrangeOperation_perm found).length_eq]

/-- A discovery that succeeds comes out the same, down to the state that it leaves behind, when
limits are raised or cleared, and its catalogue keeps within the limits that it was given. -/
theorem introspect_of_raised (reg : Registry σ) (w : World σ) {limits : Limits}
    (raised : s.limits.RaisedTo limits) (found : (w.introspect reg s).1 = .ok c) :
    w.introspect reg { s with limits := limits } = w.introspect reg s ∧
      (∀ n, s.limits.operations = some n → c.operations.length ≤ n) ∧
      (∀ n, s.limits.arguments = some n → ∀ op ∈ c.operations, op.arguments.length ≤ n) ∧
      ∀ n, s.limits.enumMembers = some n → ∀ e ∈ c.enums, e.members.length ≤ n := by
  have valid := (ok_of_introspect found).1
  refine ⟨?_, ?_, ?_, ?_⟩
  · have hfound := found
    rw [introspect_of_valid valid] at hfound ⊢
    rw [introspect_of_valid (Settings.fault?_of_raised raised valid)]
    rcases hs : w.start reg with ⟨_ | reason, w'⟩
    · simp only [started, hs] at hfound ⊢
      rw [Registry.catalog_of_raised raised hfound]
    · simp only [started, hs]
  · intro n hn
    simpa [hn] using all_length_operations_le found
  · intro n hn op hop
    simpa [hn] using all_length_arguments_le found hop
  · intro n hn e he
    simpa [hn] using (enums_of_introspect found).2 e he

/-- Three types may be inspected, which is as many as there are. -/
def exactLimits : Limits where
  operations := some 3
  arguments := some 2
  enumMembers := some 1

def raisedLimits : Limits where
  operations := some 4
  enumMembers := some 1

theorem introspect_of_raised_sharingTable :
    exactLimits.RaisedTo raisedLimits ∧
    ∃ c, (introspect sharingTable.registry { limits := exactLimits } ⟨{}, {}⟩).1 = .ok c ∧
      (introspect sharingTable.registry { limits := raisedLimits } ⟨{}, {}⟩).1 = .ok c ∧
      c.operations.length ≤ 3 ∧ ∀ op ∈ c.operations, op.arguments.length ≤ 2 := by
  have raised : exactLimits.RaisedTo raisedLimits := by
    intro resource n' hn'
    cases resource with
    | operations =>
      cases hn'
      exact ⟨3, rfl, by decide⟩
    | arguments => cases hn'
    | enumMembers => exact ⟨n', hn', Nat.le_refl n'⟩
  have found : (introspect sharingTable.registry { limits := exactLimits } ⟨{}, {}⟩).1 = .ok _ :=
    rfl
  obtain ⟨hsame, hoperations, harguments, -⟩ :=
    introspect_of_raised sharingTable.registry ⟨{}, {}⟩ raised found
  exact ⟨raised, _, found, hsame ▸ found, hoperations 3 rfl, harguments 2 rfl⟩

end World

end OpCatalog
