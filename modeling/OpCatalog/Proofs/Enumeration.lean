import OpCatalog.Discovery.Enumeration
import OpCatalog.Proofs.Limits
import OpCatalog.Proofs.Run

/-!
# The members that an enumeration keeps

The loop over raw members drops the sentinel, fills in missing strings and counts in one
pass. What it keeps is every other member in order, and it fails exactly when there are
more of these than the limit allows.
-/
namespace OpCatalog

/-- A member with empty strings for those that are missing. -/
def EnumMember.ofRaw (m : RawMember) : EnumMember := ⟨m.name.getD "", m.nick.getD "", m.value⟩

/-- The members other than the sentinel. -/
def keptMembers (sentinel : String) (ms : List RawMember) : List EnumMember :=
  (ms.map EnumMember.ofRaw).filter (·.nick != sentinel)

theorem properMembers?_eq {sentinel : String} {limit : Option Nat} {found : Nat}
    (h : limit.all (found ≤ ·)) (ms : List RawMember) :
    properMembers? sentinel limit found ms = within limit found (keptMembers sentinel ms) := by
  induction ms generalizing found with
  | nil => exact (within_nil h).symm
  | cons m ms ih =>
    rw [properMembers?]
    by_cases hs : m.nick.getD "" = sentinel
    · have hkept : keptMembers sentinel (m :: ms) = keptMembers sentinel ms := by
        simp [keptMembers, EnumMember.ofRaw, hs]
      rw [if_pos (by simpa using hs), hkept]
      exact ih h
    · have hkept : keptMembers sentinel (m :: ms) =
          EnumMember.ofRaw m :: keptMembers sentinel ms := by
        simp [keptMembers, EnumMember.ofRaw, hs]
      rw [if_neg (by simpa using hs), hkept, within_cons]
      by_cases hfull : limit.any (· ≤ found)
      · rw [if_pos hfull, if_pos hfull]
      · rw [if_neg hfull, if_neg hfull, ih (all_succ_of_not_any hfull)]
        rfl

theorem nick_ne_of_mem_keptMembers {sentinel : String} {ms : List RawMember} {m : EnumMember}
    (h : m ∈ keptMembers sentinel ms) : m.nick ≠ sentinel := by
  simpa using (List.mem_filter.1 h).2

/-- A member without a nick is not the sentinel, so missing nicks may be filled in afterwards. -/
theorem keptMembers_eq {sentinel : String} (h : sentinel ≠ "") (ms : List RawMember) :
    keptMembers sentinel ms = (ms.filter (·.nick ≠ some sentinel)).map EnumMember.ofRaw := by
  rw [keptMembers, List.filter_map]
  congr 1
  apply List.filter_congr
  intro m _
  cases hn : m.nick with
  | none => simp [EnumMember.ofRaw, hn, h.symm]
  | some nick => simp [EnumMember.ofRaw, hn, bne, Bool.beq_eq_decide_eq]

namespace Registry

variable {σ : Type} {reg : Registry σ} {sentinel : String} {limit : Option Nat}
  {names : List String} {es : List EnumType}

/-- The enumerated type of a name, without members if no enumeration has the name. -/
def enumType (reg : Registry σ) (sentinel name : String) : EnumType :=
  ⟨name, keptMembers sentinel ((reg.rawMembers? name).getD [])⟩

/-- A name is resolved unless the members to be kept are too many. -/
theorem resolveEnum_eq (reg : Registry σ) (sentinel : String) (limit : Option Nat)
    (name : String) :
    reg.resolveEnum sentinel limit name =
      if limit.all ((reg.enumType sentinel name).members.length ≤ ·) then
        .ok (reg.enumType sentinel name)
      else .error (.limitExceeded .enumMembers name (limit.getD 0)) := by
  rw [resolveEnum, enumType]
  cases reg.rawMembers? name with
  | none => exact (if_pos (all_zero_le limit)).symm
  | some ms =>
    simp only [properMembers?_eq (all_zero_le limit), within_zero, Option.getD_some]
    by_cases hall : limit.all ((keptMembers sentinel ms).length ≤ ·)
    · rw [if_pos hall, if_pos hall]
    · rw [if_neg hall, if_neg hall]

theorem resolveEnum_eq_ok_iff {name : String} {e : EnumType} :
    reg.resolveEnum sentinel limit name = .ok e ↔
      e = reg.enumType sentinel name ∧ limit.all (e.members.length ≤ ·) := by
  rw [resolveEnum_eq]
  constructor
  · intro h
    split at h
    · next hall =>
      cases h
      exact ⟨rfl, hall⟩
    · cases h
  · rintro ⟨rfl, hall⟩
    exact if_pos hall

/-- Names are resolved one by one, and each must fit the limit. -/
theorem resolveEnums_eq_ok_iff :
    reg.resolveEnums sentinel limit names = .ok es ↔
      es = names.map (reg.enumType sentinel) ∧ ∀ e ∈ es, limit.all (e.members.length ≤ ·) := by
  induction names generalizing es with
  | nil =>
    simp only [resolveEnums, Except.ok.injEq, List.map_nil]
    constructor
    · rintro rfl
      simp
    · rintro ⟨rfl, -⟩
      rfl
  | cons name names ih =>
    rw [resolveEnums]
    cases hr : reg.resolveEnum sentinel limit name with
    | error e =>
      simp only [reduceCtorEq, false_iff, not_and]
      rintro rfl hall
      rw [resolveEnum_eq, if_pos (hall _ List.mem_cons_self)] at hr
      cases hr
    | ok first =>
      obtain ⟨rfl, hfirst⟩ := resolveEnum_eq_ok_iff.1 hr
      simp only [map_eq_ok_iff, ih, List.map_cons]
      constructor
      · rintro ⟨_, ⟨rfl, hall⟩, rfl⟩
        exact ⟨rfl, List.forall_mem_cons.2 ⟨hfirst, hall⟩⟩
      · rintro ⟨rfl, hall⟩
        exact ⟨_, ⟨rfl, (List.forall_mem_cons.1 hall).2⟩, rfl⟩

/-- Without a limit every name is resolved. -/
theorem resolveEnums_none (reg : Registry σ) (sentinel : String) (names : List String) :
    reg.resolveEnums sentinel none names = .ok (names.map (reg.enumType sentinel)) :=
  resolveEnums_eq_ok_iff.2 ⟨rfl, fun _ _ => rfl⟩

end Registry

/-- A discovered catalogue resolves the names that it refers to, each within the limit. -/
theorem World.enums_of_introspect {σ : Type} {reg : Registry σ} {s : Settings} {w : World σ}
    {c : Catalog} (h : (w.introspect reg s).1 = .ok c) :
    c.enums = c.referencedEnums.map (reg.enumType s.sentinel) ∧
      ∀ e ∈ c.enums, s.limits.enumMembers.all (e.members.length ≤ ·) := by
  obtain ⟨-, state, hc⟩ := ok_of_introspect h
  exact Registry.resolveEnums_eq_ok_iff.1 (Registry.ok_of_catalog hc).2

end OpCatalog
