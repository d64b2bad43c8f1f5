import Mathlib.Data.List.Forall2
import OpCatalog.Proofs.Enumeration
import OpCatalog.Registry.Tabulated

/-!
# Names resolved one after another

A list of names is resolved as a whole or not at all: the first name with more members than the
limit allows ends it. Only the members other than the sentinel are counted, and only those of a
type that is described as an enumeration and lists members.
-/
namespace OpCatalog

/-- The member is the one that marks the end. A missing nick counts as an empty one. -/
def RawMember.isMarker (sentinel : String) (m : RawMember) : Bool := m.nick.getD "" == sentinel

theorem keptMembers_eq_map (sentinel : String) (ms : List RawMember) :
    keptMembers sentinel ms = (ms.filter (!·.isMarker sentinel)).map EnumMember.ofRaw := by
  rw [keptMembers, List.filter_map]
  rfl

/-- With a sentinel that is not empty a member without a nick is no marker. -/
theorem RawMember.isMarker_of_unnamed {sentinel : String} (hs : sentinel ≠ "") {m : RawMember}
    (hm : m.nick = none) : m.isMarker sentinel = false := by
  rw [isMarker, hm, Option.getD_none, beq_eq_false_iff_ne]
  exact hs.symm

namespace Registry

variable {σ : Type} {reg : Registry σ} {sentinel name : String} {limit : Option Nat}
  {names : List String} {ms : List RawMember}

/-- The name is that of a type that is described as an enumeration and lists these members. -/
def Lists (reg : Registry σ) (name : String) (ms : List RawMember) : Prop :=
  ∃ t traits, reg.lookup? name = some t ∧ reg.traits? t = some traits ∧ traits.isEnum = true ∧
    reg.members? t = some ms

/-- The name has more members than the limit allows. -/
def Exceeds (reg : Registry σ) (sentinel : String) (limit : Option Nat) (name : String) : Prop :=
  ∃ ms n, reg.Lists name ms ∧ limit = some n ∧ n < (ms.filter (!·.isMarker sentinel)).length

/-- What the name stands for: the members that it lists, in order and without the sentinel, or no
members at all. -/
structure Resolves (reg : Registry σ) (sentinel : String) (name : String) (e : EnumType) :
    Prop where
  name_eq : e.name = name
  members_eq : ∀ ms, reg.Lists name ms →
    e.members = (ms.filter (!·.isMarker sentinel)).map EnumMember.ofRaw
  members_nil : (∀ ms, ¬reg.Lists name ms) → e.members = []
  unnamed_kept : sentinel ≠ "" → ∀ ms, reg.Lists name ms →
    ((ms.filter (·.nick.isNone)).map EnumMember.ofRaw).Sublist e.members

theorem rawMembers?_eq_some_iff : reg.rawMembers? name = some ms ↔ reg.Lists name ms := by
  simp only [rawMembers?, Option.bind_eq_bind, Option.bind_eq_some_iff, Lists]
  constructor
  · rintro ⟨t, ht, traits, htraits, hms⟩
    split at hms
    · next henum => exact ⟨t, traits, ht, htraits, henum, hms⟩
    · cases hms
  · rintro ⟨t, traits, ht, htraits, henum, hms⟩
    exact ⟨t, ht, traits, htraits, by rw [if_pos henum, hms]⟩

theorem rawMembers?_eq_none (h : ∀ ms, ¬reg.Lists name ms) : reg.rawMembers? name = none := by
  rw [Option.eq_none_iff_forall_ne_some]
  intro ms hms
  exact h ms (rawMembers?_eq_some_iff.1 hms)

theorem members_enumType (h : reg.Lists name ms) :
    (reg.enumType sentinel name).members =
      (ms.filter (!·.isMarker sentinel)).map EnumMember.ofRaw := by
  rw [enumType, rawMembers?_eq_some_iff.2 h, Option.getD_some, keptMembers_eq_map]

theorem resolves_enumType (reg : Registry σ) (sentinel name : String) :
    reg.Resolves sentinel name (reg.enumType sentinel name) where
  name_eq := rfl
  members_eq := fun _ h => members_enumType h
  members_nil := by
    intro h
    rw [enumType, rawMembers?_eq_none h]
    rfl
  unnamed_kept := by
    intro hs ms h
    rw [members_enumType h]
    refine (List.monotone_filter_right ms ?_).map EnumMember.ofRaw
    intro m hm
    rw [RawMember.isMarker_of_unnamed hs (Option.isNone_iff_eq_none.1 hm), Bool.not_false]

/-! ## The first that is too large -/

/-- Whether the members of a name are too many. -/
def exceeds (reg : Registry σ) (sentinel : String) (limit : Option Nat) (name : String) : Bool :=
  !limit.all ((reg.enumType sentinel name).members.length ≤ ·)

theorem exceeds_iff : reg.exceeds sentinel limit name ↔ reg.Exceeds sentinel limit name := by
  cases limit with
  | none => simp [exceeds, Exceeds]
  | some n =>
    simp only [exceeds, Option.all_some, Bool.not_eq_true', decide_eq_false_iff_not, Nat.not_le]
    constructor
    · intro h
      cases hms : reg.rawMembers? name with
      | none => simp [enumType, hms, keptMembers] at h
      | some ms =>
        have hlists := rawMembers?_eq_some_iff.1 hms
        rw [members_enumType hlists, List.length_map] at h
        exact ⟨ms, n, hlists, rfl, h⟩
    · rintro ⟨ms, _, hlists, ⟨⟩, h⟩
      rwa [members_enumType hlists, List.length_map]

/-- The list is gone through up to the first name that is too large. -/
theorem resolveEnums_eq (reg : Registry σ) (sentinel : String) (limit : Option Nat)
    (names : List String) :
    reg.resolveEnums sentinel limit names =
      match names.find? (reg.exceeds sentinel limit) with
      | some name => .error (.limitExceeded .enumMembers name (limit.getD 0))
      | none => .ok (names.map (reg.enumType sentinel)) := by
  induction names with
  | nil => rfl
  | cons name names ih =>
    rw [resolveEnums, resolveEnum_eq, List.find?_cons, exceeds]
    cases limit.all ((reg.enumType sentinel name).members.length ≤ ·) with
    | false => rfl
    | true =>
      simp only [if_true, Bool.not_true, ih]
      cases names.find? (reg.exceeds sentinel limit) with
      | some _ => rfl
      | none => rfl

theorem resolveEnums_eq_error_iff {e : Failure} :
    reg.resolveEnums sentinel limit names = .error e ↔
      ∃ before name after n, names = before ++ name :: after ∧
        (∀ earlier ∈ before, ¬reg.Exceeds sentinel limit earlier) ∧
        reg.Exceeds sentinel limit name ∧ limit = some n ∧
        e = .limitExceeded .enumMembers name n := by
  rw [resolveEnums_eq]
  constructor
  · intro h
    cases hfirst : names.find? (reg.exceeds sentinel limit) with
    | none => simp [hfirst] at h
    | some name =>
      simp only [hfirst, Except.error.injEq] at h
      obtain ⟨hname, before, after, hsplit, hbefore⟩ := List.find?_eq_some_iff_append.1 hfirst
      have hover := exceeds_iff.1 hname
      have hset : ∃ n, limit = some n := by
        obtain ⟨_, n, -, hn, -⟩ := hover
        exact ⟨n, hn⟩
      obtain ⟨n, rfl⟩ := hset
      refine ⟨before, name, after, n, hsplit, ?_, hover, rfl, h.symm⟩
      intro earlier hearlier hexceeds
      have hnot := hbefore earlier hearlier
      simp [exceeds_iff.2 hexceeds] at hnot
  · rintro ⟨before, name, after, n, hsplit, hbefore, hover, rfl, rfl⟩
    have hfirst : names.find? (reg.exceeds sentinel (some n)) = some name := by
      refine List.find?_eq_some_iff_append.2 ⟨exceeds_iff.2 hover, before, after, hsplit, ?_⟩
      intro earlier hearlier
      simpa using mt exceeds_iff.1 (hbefore earlier hearlier)
    rw [hfirst]
    rfl

/-- Only the members besides the sentinel have a part in what comes of a name. -/
theorem enumType_congr {τ : Type} {reg' : Registry τ}
    (h : (reg'.rawMembers? name).map (·.filter (!·.isMarker sentinel)) =
      (reg.rawMembers? name).map (·.filter (!·.isMarker sentinel))) :
    reg'.enumType sentinel name = reg.enumType sentinel name := by
  have hmembers : ∀ found : Option (List RawMember), keptMembers sentinel (found.getD []) =
      ((found.map (·.filter (!·.isMarker sentinel))).getD []).map EnumMember.ofRaw := by
    intro found
    cases found with
    | none => rfl
    | some ms => exact keptMembers_eq_map sentinel ms
  rw [enumType, enumType, hmembers, h, ← hmembers]

/-- All names are resolved if none of them has more members than the limit allows, and otherwise
the first that has is reported. What is given then is one enumerated type for each name, in order.
Sentinels do not count, wherever they stand: two registries that differ in them only cannot be told
apart. -/
theorem resolveEnums_outcome (reg : Registry σ) (sentinel : String) (limit : Option Nat)
    (names : List String) :
    ((∃ es, reg.resolveEnums sentinel limit names = .ok es) ↔
      ∀ name ∈ names, ¬reg.Exceeds sentinel limit name) ∧
    (∀ es, reg.resolveEnums sentinel limit names = .ok es →
      List.Forall₂ (reg.Resolves sentinel) names es) ∧
    (∀ e, reg.resolveEnums sentinel limit names = .error e ↔
      ∃ before name after n, names = before ++ name :: after ∧
        (∀ earlier ∈ before, ¬reg.Exceeds sentinel limit earlier) ∧
        reg.Exceeds sentinel limit name ∧ limit = some n ∧
        e = .limitExceeded .enumMembers name n) ∧
    ∀ {τ : Type} (reg' : Registry τ),
      (∀ name, (reg'.rawMembers? name).map (·.filter (!·.isMarker sentinel)) =
        (reg.rawMembers? name).map (·.filter (!·.isMarker sentinel))) →
      reg'.resolveEnums sentinel limit names = reg.resolveEnums sentinel limit names := by
  refine ⟨?_, ?_, fun e => resolveEnums_eq_error_iff, ?_⟩
  · have hnone : names.find? (reg.exceeds sentinel limit) = none ↔
        ∀ name ∈ names, ¬reg.Exceeds sentinel limit name := by
      simp only [List.find?_eq_none, exceeds_iff]
    rw [← hnone, resolveEnums_eq]
    cases names.find? (reg.exceeds sentinel limit) with
    | none => simp
    | some name => simp
  · intro es h
    obtain ⟨rfl, -⟩ := resolveEnums_eq_ok_iff.1 h
    rw [List.forall₂_map_right_iff, List.forall₂_same]
    intro name _
    exact reg.resolves_enumType sentinel name
  · intro τ reg' h
    have hexceeds : reg'.exceeds sentinel limit = reg.exceeds sentinel limit := by
      funext name
      rw [exceeds, exceeds, enumType_congr (h name)]
    have hmap : names.map (reg'.enumType sentinel) = names.map (reg.enumType sentinel) :=
      List.map_congr_left fun name _ => enumType_congr (h name)
    rw [resolveEnums_eq, resolveEnums_eq, hexceeds, hmap]

end Registry

/-- An enumeration with the given members, flags, and an enumeration that lists no members. -/
def Table.aligning (members : List RawMember) : Table where
  types :=
    [{ handle := ⟨1⟩, traits := some { has := fun _ => false, fundamental := .enum },
       members := some members },
      { handle := ⟨2⟩, traits := some { has := fun _ => false, fundamental := .flags },
        members := some members },
      { handle := ⟨3⟩, traits := some { has := fun _ => false, fundamental := .enum } }]
  names := [("VipsAlign", ⟨1⟩), ("VipsHints", ⟨2⟩), ("VipsBare", ⟨3⟩)]

theorem Table.rawMembers?_aligning (members : List RawMember) (name : String) :
    (Table.aligning members).registry.rawMembers? name =
      if name = "VipsAlign" then some members else none := by
  by_cases halign : name = "VipsAlign"
  · subst halign
    rfl
  rw [if_neg halign]
  by_cases hhints : name = "VipsHints"
  · subst hhints
    rfl
  by_cases hbare : name = "VipsBare"
  · subst hbare
    rfl
  have hlookup : (Table.aligning members).registry.lookup? name = none := by
    simp [Table.registry, Table.aligning, List.lookup_eq_none_iff, halign, hhints, hbare]
  rw [Registry.rawMembers?, hlookup]
  rfl

/-- Two members and two sentinels, one of them in front. -/
def alignMembers : List RawMember :=
  [⟨none, some "last", -1⟩, ⟨some "VIPS_ALIGN_LOW", some "low", 0⟩,
    ⟨some "VIPS_ALIGN_LAST", some "last", 2⟩, ⟨none, none, 1⟩]

/-- Two members are not too many for a limit of two, with the sentinels and without them, but for a
limit of one they are. -/
theorem Registry.resolveEnums_outcome_aligning :
    List.Forall₂ ((Table.aligning alignMembers).registry.Resolves "last")
      ["VipsAlign", "VipsNone", "VipsHints", "VipsBare", "VipsAlign"]
      [⟨"VipsAlign", [⟨"VIPS_ALIGN_LOW", "low", 0⟩, ⟨"", "", 1⟩]⟩, ⟨"VipsNone", []⟩,
        ⟨"VipsHints", []⟩, ⟨"VipsBare", []⟩,
        ⟨"VipsAlign", [⟨"VIPS_ALIGN_LOW", "low", 0⟩, ⟨"", "", 1⟩]⟩] ∧
    (Table.aligning (alignMembers.filter (!·.isMarker "last"))).registry.resolveEnums "last"
        (some 2) ["VipsAlign"] =
      (Table.aligning alignMembers).registry.resolveEnums "last" (some 2) ["VipsAlign"] ∧
    (Table.aligning alignMembers).registry.resolveEnums "last" (some 1)
        ["VipsHints", "VipsAlign", "VipsBare"] =
      .error (.limitExceeded .enumMembers "VipsAlign" 1) := by
  refine ⟨?_, ?_, ?_⟩
  · exact (resolveEnums_outcome (Table.aligning alignMembers).registry "last" (some 2)
      ["VipsAlign", "VipsNone", "VipsHints", "VipsBare", "VipsAlign"]).2.1 _ rfl
  · refine (resolveEnums_outcome (Table.aligning alignMembers).registry "last" (some 2)
      ["VipsAlign"]).2.2.2 _ ?_
    intro name
    simp only [Table.rawMembers?_aligning]
    split
    · rfl
    · rfl
  · refine ((resolveEnums_outcome (Table.aligning alignMembers).registry "last" (some 1)
      ["VipsHints", "VipsAlign", "VipsBare"]).2.2.1 _).2
        ⟨["VipsHints"], "VipsAlign", ["VipsBare"], 1, rfl, ?_, ?_, rfl, rfl⟩
    · rintro _ hname ⟨ms, _, hlists, -⟩
      obtain rfl := List.mem_singleton.1 hname
      have hnone := rawMembers?_eq_some_iff.2 hlists
      cases hnone
    · exact ⟨alignMembers, 1, ⟨⟨1⟩, _, rfl, rfl, rfl, rfl⟩, rfl, by decide⟩

end OpCatalog
