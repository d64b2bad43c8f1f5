import OpCatalog.Proofs.Extension
import OpCatalog.Proofs.Registrations
import OpCatalog.Proofs.Release
import OpCatalog.Proofs.Shadowing

/-!
# Inherited parameters

A type's entry holds the parameters that the type adds. An object shows those of all its
ancestors, from the root of the hierarchy down, so that what a type inherits comes before what it
adds. `parameters_inherited` says so of live objects, and what it means for an inspection: the
arguments of a type begin with those of each type above it, also where it declares one of their
names anew.
-/
namespace OpCatalog

namespace Forest

variable {f : Forest} {t p : TypeHandle} {e : TypeEntry} {line above : List TypeEntry}
  {d : TypeDefinition}

/-- The entries from the root of the hierarchy down to a type. -/
inductive Line (f : Forest) : TypeHandle → List TypeEntry → Prop
  | root {t : TypeHandle} {e : TypeEntry} :
    f.entry? t = some e → e.parent = none → Line f t [e]
  | child {t p : TypeHandle} {e : TypeEntry} {line : List TypeEntry} :
    f.entry? t = some e → e.parent = some p → Line f p line → Line f t (line ++ [e])

/-- The type stands for the definition. -/
def Declares (f : Forest) (t : TypeHandle) (d : TypeDefinition) : Prop :=
  ∃ e, f.entry? t = some e ∧ f.Realizes d e

/-! ## Lines -/

theorem parent?_eq (he : f.entry? t = some e) : f.parent? t = e.parent := by
  rw [parent?, he, Option.bind_some]

theorem WellFormed.exists_line (hf : f.WellFormed) (ht : (f.entry? t).isSome) :
    ∃ line, f.Line t line := by
  induction t using hf.wellFounded_parent?.induction with
  | h t ih =>
    obtain ⟨e, he⟩ := Option.isSome_iff_exists.1 ht
    cases hp : e.parent with
    | none => exact ⟨[e], Line.root he hp⟩
    | some p =>
      have hparent := (parent?_eq he).trans hp
      obtain ⟨line, hline⟩ := ih p hparent (hf.parent_lt hparent).1
      exact ⟨line ++ [e], Line.child he hp hline⟩

/-- The line of an ancestor is the beginning of the line of whatever derives from it. -/
theorem Line.exists_append (h : f.Line p above) (hdesc : f.Descends t p) :
    ∃ added, f.Line t (above ++ added) := by
  induction hdesc with
  | refl => exact ⟨[], by rwa [List.append_nil]⟩
  | @step t q p hq _ ih =>
    obtain ⟨added, hline⟩ := ih h
    obtain ⟨e, he⟩ := Option.isSome_iff_exists.1 (isSome_entry?_of_parent? hq)
    refine ⟨added ++ [e], ?_⟩
    rw [← List.append_assoc]
    exact Line.child he ((parent?_eq he).symm.trans hq) hline

theorem lineageFrom_none (f : Forest) (fuel : Nat) : f.lineageFrom fuel none = [] := by
  cases fuel <;> rfl

/-- The walk along parents goes through the line from its end, and handles get smaller on the
way, so that the bound on its steps does not cut it short. -/
theorem Line.lineageFrom_eq (h : f.Line t line) (hf : f.WellFormed) {fuel : Nat}
    (hle : t.raw ≤ fuel) : f.lineageFrom fuel (some t) = line.reverse := by
  induction h generalizing fuel with
  | @root t e he hp =>
    have hpos := (isSome_entry?_iff.1 (Option.isSome_of_eq_some he)).1
    obtain ⟨fuel, rfl⟩ := Nat.exists_eq_add_of_lt (Nat.lt_of_lt_of_le hpos hle)
    rw [Nat.zero_add, lineageFrom]
    simp only [he, hp, lineageFrom_none, List.reverse_singleton]
  | @child t p e line he hp _ ih =>
    have hlt := (hf.parent_lt ((parent?_eq he).trans hp)).2
    obtain ⟨fuel, rfl⟩ := Nat.exists_eq_add_of_lt (Nat.lt_of_lt_of_le (Nat.zero_lt_of_lt hlt) hle)
    rw [Nat.zero_add, lineageFrom]
    simp only [he, hp, ih (by omega : p.raw ≤ fuel), List.reverse_append, List.reverse_singleton,
      List.singleton_append]

theorem Line.entry? (h : f.Line t line) : ∃ e, f.entry? t = some e := by
  cases h with
  | root he _ => exact ⟨_, he⟩
  | child he _ _ => exact ⟨_, he⟩

/-- A type has the parameters of its line, in order. -/
theorem Line.parametersOf_eq (h : f.Line t line) (hf : f.WellFormed) :
    f.parametersOf t = line.flatMap (·.parameters) := by
  obtain ⟨e, he⟩ := h.entry?
  have hle := (isSome_entry?_iff.1 (Option.isSome_of_eq_some he)).2
  rw [parametersOf, lineage, h.lineageFrom_eq hf hle, List.reverse_reverse]

theorem WellFormed.prefix_parametersOf (hf : f.WellFormed) (hp : (f.entry? p).isSome)
    (h : f.Descends t p) : f.parametersOf p <+: f.parametersOf t := by
  obtain ⟨above, habove⟩ := hf.exists_line hp
  obtain ⟨added, hline⟩ := habove.exists_append h
  rw [habove.parametersOf_eq hf, hline.parametersOf_eq hf, List.flatMap_append]
  exact List.prefix_append _ _

/-! ## Arguments -/

/-- What is kept of the first parameters is kept of all, and comes first. -/
theorem prefix_keptParameters {specs specs' : List ParamSpec} (h : specs <+: specs') :
    keptParameters specs <+: keptParameters specs' := by
  obtain ⟨after, rfl⟩ := h
  rw [keptParameters_append]
  exact List.prefix_append _ _

/-- The arguments that an inspection without a limit gives for a type. -/
def arguments (f : Forest) (t : TypeHandle) : List Argument :=
  (keptParameters (f.parametersOf t)).map f.registry.classify

theorem WellFormed.prefix_arguments (hf : f.WellFormed) (hp : (f.entry? p).isSome)
    (h : f.Descends t p) : f.arguments p <+: f.arguments t :=
  (prefix_keptParameters (hf.prefix_parametersOf hp h)).map f.registry.classify

theorem exists_inspect_of_isInstantiable (hi : f.isInstantiable t) (rootNames : List String)
    (n : String) (s : Process) :
    ∃ op, (f.registry.inspect rootNames none t n s).1 = .ok (some op) ∧
      op.arguments = f.arguments t := by
  refine ⟨f.describe rootNames t n, ?_, rfl⟩
  rw [inspect_registry, if_pos hi, Option.all_none, if_pos rfl]

/-! ## Definitions -/

theorem declares_of_register (hf : f.WellFormed) {r : TypeHandle × Forest}
    (h : f.register d = .ok r) : r.2.Declares r.1 d := by
  obtain ⟨e, -, hfresh, hreal, -, rfl⟩ := ok_of_register h
  exact ⟨e, entry?_insert_self f e, hreal.insert hf hfresh⟩

/-- A type stands for its definition for good. -/
theorem Declares.register (h : f.Declares t d) (hf : f.WellFormed) {d' : TypeDefinition}
    {r : TypeHandle × Forest} (hr : f.register d' = .ok r) : r.2.Declares t d := by
  obtain ⟨e, he, hreal⟩ := h
  obtain ⟨new, -, hfresh, -, -, rfl⟩ := ok_of_register hr
  exact ⟨_, entry?_insert_of_some he new, (hreal.insert hf hfresh).linked _ _ _⟩

/-! ## Live objects -/

theorem isSome_entry?_of_isInstantiable (hi : f.isInstantiable t) : (f.entry? t).isSome := by
  cases he : f.entry? t with
  | none => simp [isInstantiable, he] at hi
  | some e => rfl

/-- No inspection adds a live object. -/
theorem follows_live (f : Forest) : f.registry.Follows fun p p' => p'.live ⊆ p.live where
  refl := fun p => List.Subset.refl p.live
  trans := fun h h' => List.Subset.trans h' h
  inspect := by
    intro rootNames limit t name p
    by_cases hi : f.isInstantiable t
    · rw [inspect_snd_of_isInstantiable hi]
      intro entry hentry
      obtain ⟨hmem, hne⟩ := List.mem_filter.1 hentry
      rcases List.mem_cons.1 hmem with rfl | hmem
      · simp [Process.create] at hne
      · exact (List.mem_filter.1 hmem).1
    · rw [inspect_eq_of_not_isInstantiable hi]
      exact List.Subset.refl p.live

end Forest

namespace Host

variable {h : Host} {t : TypeHandle} {d : TypeDefinition}

/-- The types of live objects can be instantiated. -/
def Typed (h : Host) : Prop :=
  ∀ entry ∈ h.world.state.live, h.forest.isInstantiable entry.2

theorem live_start (f : Forest) (w : World Process) :
    (w.start f.registry).2.state.live = w.state.live := by
  obtain ⟨outcome, starts, hstart⟩ := start_snd f w
  rw [hstart]

theorem live_introspect (f : Forest) (w : World Process) (s : Settings) :
    (w.introspect f.registry s).2.state.live ⊆ w.state.live := by
  rw [World.introspect_snd]
  split
  · exact List.Subset.refl _
  · split
    · have hrun := f.follows_live.afterQuery (w.start f.registry).2.state (.catalog s)
      rwa [live_start] at hrun
    · rw [live_start]
      exact List.Subset.refl _

theorem typed_act (hf : h.forest.WellFormed) (ht : h.Typed) (a : Action) : (h.act a).Typed := by
  cases a with
  | register d =>
    rw [act, register]
    cases hr : h.forest.register d with
    | error e => exact ht
    | ok r =>
      intro entry hentry
      have hi := ht entry hentry
      have hsome := Forest.isSome_entry?_of_isInstantiable hi
      have hkept := (hf.extends_register hr).isInstantiable hsome
      exact hkept.trans hi
  | instantiate u =>
    by_cases hi : h.forest.isInstantiable u
    · have hobject : (h.forest.registry.instantiate u h.world.state).2 =
          (h.world.state.create u).2 := congrArg Prod.snd (if_pos hi)
      intro entry hentry
      rw [act, onProcess, hobject] at hentry
      rcases List.mem_cons.1 hentry with rfl | hentry
      · exact hi
      · exact ht entry (List.mem_filter.1 hentry).1
    · have hobject : (h.forest.registry.instantiate u h.world.state).2 = h.world.state :=
        congrArg Prod.snd (if_neg hi)
      intro entry hentry
      rw [act, onProcess, hobject] at hentry
      exact ht entry hentry
  | release object => exact fun entry hentry => ht entry (List.mem_filter.1 hentry).1
  | introspect s => exact fun entry hentry => ht entry (live_introspect _ _ s hentry)
  | ask q =>
    exact fun entry hentry => ht entry (h.forest.follows_live.afterQuery _ q hentry)
  | start =>
    intro entry hentry
    rw [act, live_start] at hentry
    exact ht entry hentry
  | stop =>
    intro entry hentry
    rw [act, World.stop] at hentry
    split at hentry
    · exact ht entry hentry
    · exact ht entry hentry
  | failStart reason => exact ht

theorem Reachable.typed (hr : h.Reachable) : h.Typed := by
  induction hr with
  | empty =>
    intro entry hentry
    cases hentry
  | standard =>
    intro entry hentry
    cases hentry
  | act a hr ih => exact typed_act hr.grown.wellFormed ih a

theorem Reachable.isInstantiable_of_live (hr : h.Reachable) {object : InstanceHandle}
    (hlive : h.world.state.typeOf? object = some t) : h.forest.isInstantiable t := by
  obtain ⟨before, after, hsplit, -⟩ := List.lookup_eq_some_iff.1 hlive
  exact hr.typed (object, t) (by rw [hsplit]; simp)

theorem declares_act (hf : h.forest.WellFormed) (hd : h.forest.Declares t d) (a : Action) :
    (h.act a).forest.Declares t d := by
  cases a with
  | register d' =>
    rw [act, register]
    cases hr : h.forest.register d' with
    | error e => exact hd
    | ok r => exact hd.register hf hr
  | _ => exact hd

theorem declares_acts (hg : h.forest.Grown) (hd : h.forest.Declares t d) (actions : List Action) :
    (actions.foldl act h).forest.Declares t d := by
  induction actions generalizing h with
  | nil => exact hd
  | cons a actions ih => exact ih (grown_act hg a) (declares_act hg.wellFormed hd a)

/-- A live object shows the parameters of all entries from the root of the hierarchy down to that
of its type, and the entry of a type holds what the type was registered with, in order, whatever
happens later. So without a limit the arguments of a type that can be instantiated begin with
those of any such type above it, whatever the one below declares. -/
theorem parameters_inherited (reachable : h.Reachable) :
    (∀ object t, h.world.state.typeOf? object = some t →
      ∃ line, h.forest.Line t line ∧
        h.forest.registry.parameters object h.world.state = line.flatMap (·.parameters)) ∧
    (∀ d t, (h.register d).1 = .ok t →
      ∀ actions : List Action, (actions.foldl act (h.register d).2).forest.Declares t d) ∧
    ∀ t p, h.forest.Descends t p → h.forest.isInstantiable p → h.forest.isInstantiable t →
      ∃ inherited added,
        (∀ rootNames n s, ∃ op, (h.forest.registry.inspect rootNames none p n s).1 =
          .ok (some op) ∧ op.arguments = inherited) ∧
        ∀ rootNames n s, ∃ op, (h.forest.registry.inspect rootNames none t n s).1 =
          .ok (some op) ∧ op.arguments = inherited ++ added := by
  have hf := reachable.grown.wellFormed
  refine ⟨?_, ?_, ?_⟩
  · intro object t hlive
    have hi := reachable.isInstantiable_of_live hlive
    obtain ⟨line, hline⟩ := hf.exists_line (Forest.isSome_entry?_of_isInstantiable hi)
    refine ⟨line, hline, ?_⟩
    rw [← hline.parametersOf_eq hf]
    simp only [Forest.registry, hlive]
  · intro d t hr actions
    rw [register] at hr ⊢
    cases hd : h.forest.register d with
    | error e => simp [hd] at hr
    | ok r =>
      simp only [hd, Except.ok.injEq] at hr
      subst hr
      exact declares_acts (h := { h with forest := r.2 }) (reachable.grown.register hd)
        (Forest.declares_of_register hf hd) actions
  · intro t p hdesc hp ht
    obtain ⟨added, happend⟩ :=
      hf.prefix_arguments (Forest.isSome_entry?_of_isInstantiable hp) hdesc
    refine ⟨h.forest.arguments p, added, Forest.exists_inspect_of_isInstantiable hp, ?_⟩
    rw [happend]
    exact Forest.exists_inspect_of_isInstantiable ht

/-- A saver with a deprecated parameter and one that can be used, and a saver below it that
declares both names anew, each with other flags, and one more. -/
def saverTypes : List TypeDefinition :=
  [((TypeDefinition.named "VipsSave").withParent "VipsOperation").withNickname "save"
      |>.addArgument
        { name := "profile", typeName := "gchararray", flags := [.construct, .deprecated] }
      |>.addArgument { name := "strip", typeName := "gboolean", flags := ParamFlag.optionalInput },
    ((TypeDefinition.named "VipsSavePng").withParent "VipsSave").withNickname "pngsave"
      |>.addArgument { name := "strip", typeName := "gint", flags := ParamFlag.requiredInput }
      |>.addArgument
        { name := "profile", typeName := "gchararray", flags := ParamFlag.optionalInput }
      |>.addArgument { name := "in", typeName := "VipsImage", flags := ParamFlag.requiredInput }]

/-- A host with both savers and a live object of the second. -/
def saving : Host :=
  (saverTypes.map Action.register ++ [Action.instantiate ⟨29⟩]).foldl act standard

/-- The parameter that is declared anew does not take the place of the inherited one, and the one
that is deprecated above comes with what is added below. -/
theorem parameters_inherited_saving :
    (∃ line, saving.forest.Line ⟨29⟩ line ∧
      saving.forest.registry.parameters ⟨1⟩ saving.world.state = line.flatMap (·.parameters)) ∧
    (saving.forest.registry.parameters ⟨1⟩ saving.world.state).map (·.name) =
      ["profile", "strip", "strip", "profile", "in"] ∧
    ∃ above below, (saving.forest.registry.inspect [] none ⟨28⟩ "save" {}).1 = .ok (some above) ∧
      (saving.forest.registry.inspect [] none ⟨29⟩ "pngsave" {}).1 = .ok (some below) ∧
      above.arguments <+: below.arguments ∧
      above.arguments.map (fun a => (a.name, a.isRequired)) = [("strip", false)] ∧
      below.arguments.map (fun a => (a.name, a.isRequired)) =
        [("strip", false), ("profile", false), ("in", true)] := by
  have reachable : saving.Reachable := Reachable.standard.acts _
  obtain ⟨hlive, -, hinherits⟩ := parameters_inherited reachable
  have hdesc : saving.forest.Descends ⟨29⟩ ⟨28⟩ := .step (by rfl) (.refl _)
  obtain ⟨inherited, added, habove, hbelow⟩ := hinherits ⟨29⟩ ⟨28⟩ hdesc (by rfl) (by rfl)
  obtain ⟨above, hinspect, rfl⟩ := habove [] "save" {}
  obtain ⟨below, hinspect', hadded⟩ := hbelow [] "pngsave" {}
  refine ⟨hlive ⟨1⟩ ⟨29⟩ rfl, rfl, above, below, hinspect, hinspect', ?_, ?_, ?_⟩
  · rw [hadded]
    exact List.prefix_append _ _
  · cases hinspect
    rfl
  · cases hinspect'
    rfl

end Host

end OpCatalog
