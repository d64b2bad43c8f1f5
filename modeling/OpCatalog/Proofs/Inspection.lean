import OpCatalog.Discovery.FirstOfEach
import OpCatalog.Discovery.Inspection
import OpCatalog.Proofs.Limits

/-!
# The parameters that an inspection keeps

The loop over the parameters of an object filters, drops repeated names and counts in one
pass. What it keeps is the first usable parameter of each name, and it fails exactly
when there are more of these than the limit allows.
-/
namespace OpCatalog

/-- Set at construction and not deprecated. -/
def ParamSpec.isUsable (spec : ParamSpec) : Bool := !spec.isDeprecated && spec.isConstruct

/-- The first usable parameter of each name. -/
def keptParameters (specs : List ParamSpec) : List ParamSpec :=
  firstOfEach ParamSpec.name [] (specs.filter ParamSpec.isUsable)

theorem usableParameters?_eq {limit : Option Nat} {found : Nat} (h : limit.all (found ≤ ·))
    (seen : List String) (specs : List ParamSpec) :
    usableParameters? limit seen found specs =
      within limit found (firstOfEach ParamSpec.name seen (specs.filter ParamSpec.isUsable)) := by
  induction specs generalizing seen found with
  | nil => exact (within_nil h).symm
  | cons spec specs ih =>
    rw [usableParameters?]
    cases hu : spec.isUsable with
    | false =>
      have hskip : (spec.isDeprecated || !spec.isConstruct || seen.contains spec.name) = true := by
        have hn : (spec.isDeprecated || !spec.isConstruct) = true := by
          rw [← Bool.not_inj_iff]
          simpa [ParamSpec.isUsable] using hu
        rw [hn, Bool.true_or]
      rw [if_pos hskip, List.filter_cons_of_neg (by simp [hu])]
      exact ih h seen
    | true =>
      have hn : (spec.isDeprecated || !spec.isConstruct) = false := by
        simpa [ParamSpec.isUsable] using hu
      rw [hn, Bool.false_or, List.filter_cons_of_pos hu, firstOfEach]
      by_cases hs : spec.name ∈ seen
      · rw [if_pos (List.contains_iff_mem.2 hs), if_pos hs]
        exact ih h seen
      · rw [if_neg (mt List.contains_iff_mem.1 hs), if_neg hs, within_cons]
        by_cases hfull : limit.any (· ≤ found)
        · rw [if_pos hfull, if_pos hfull]
        · rw [if_neg hfull, if_neg hfull, ih (all_succ_of_not_any hfull)]

/-- All parameters to be kept are kept, unless they are too many. -/
theorem usableParameters?_zero (limit : Option Nat) (specs : List ParamSpec) :
    usableParameters? limit [] 0 specs =
      if limit.all ((keptParameters specs).length ≤ ·) then some (keptParameters specs)
      else none := by
  rw [usableParameters?_eq (all_zero_le limit), within_zero, keptParameters]

theorem mem_of_mem_keptParameters {specs : List ParamSpec} {spec : ParamSpec}
    (h : spec ∈ keptParameters specs) : spec ∈ specs :=
  (List.mem_filter.1 ((firstOfEach_sublist _ _ _).subset h)).1

theorem nodup_keptParameters (specs : List ParamSpec) :
    ((keptParameters specs).map (·.name)).Nodup := nodup_firstOfEach ParamSpec.name [] _

namespace Registry

variable {σ : Type}

/-- The operation that a live object describes, however many arguments it has. -/
def described (reg : Registry σ) (rootNames : List String) (t : TypeHandle) (name : String)
    (object : InstanceHandle) (s : σ) : Operation where
  name := name
  description := (reg.description? object s).getD ""
  category := reg.category rootNames t name
  arguments := (keptParameters (reg.parameters object s)).map reg.classify

/-- An object is described unless the arguments are too many. -/
theorem describeOperation_eq (reg : Registry σ) (rootNames : List String) (limit : Option Nat)
    (t : TypeHandle) (name : String) (object : InstanceHandle) (s : σ) :
    reg.describeOperation rootNames limit t name object s =
      if limit.all ((reg.described rootNames t name object s).arguments.length ≤ ·) then
        .ok (reg.described rootNames t name object s)
      else .error (.limitExceeded .arguments name (limit.getD 0)) := by
  rw [describeOperation, usableParameters?_zero, described, List.length_map]
  by_cases hall : limit.all ((keptParameters (reg.parameters object s)).length ≤ ·)
  · simp only [if_pos hall]
  · simp only [if_neg hall]

theorem inspect_of_refused {reg : Registry σ} {t : TypeHandle} {s : σ}
    (refused : (reg.instantiate t s).1 = none) (rootNames : List String) (limit : Option Nat)
    (name : String) :
    reg.inspect rootNames limit t name s = (.ok none, (reg.instantiate t s).2) := by
  rw [inspect]
  rcases hi : reg.instantiate t s with ⟨_ | object, s'⟩
  · rfl
  · rw [hi] at refused
    cases refused

theorem inspect_of_made {reg : Registry σ} {t : TypeHandle} {s s' : σ} {object : InstanceHandle}
    (made : reg.instantiate t s = (some object, s')) (rootNames : List String)
    (limit : Option Nat) (name : String) :
    reg.inspect rootNames limit t name s =
      (if limit.all ((keptParameters (reg.parameters object s')).length ≤ ·) then
        .ok (some (reg.described rootNames t name object s'))
      else .error (.limitExceeded .arguments name (limit.getD 0)), reg.release object s') := by
  simp only [inspect, made, describeOperation_eq, described, List.length_map]
  split
  · rfl
  · rfl

end Registry

end OpCatalog
