import OpCatalog.Proofs.Extension

/-!
# Late registration

One more type gives a discovery at most one more operation. All that was discovered without the
type is there, unchanged and in its order, whatever name the type takes and wherever it is
put, unless it brings a nickname that an operation has already.
-/
namespace OpCatalog

/-! ## Entries left out by name -/

section Lists

variable {α κ : Type} [DecidableEq κ] {key : α → κ}

/-- Where keys are unique, leaving out one key takes away one entry or none. -/
theorem filter_eq_or_exists_append {as : List α} (hn : (as.map key).Nodup) (k : κ) :
    as.filter (key · ≠ k) = as ∨
      ∃ before a after, as = before ++ a :: after ∧ key a = k ∧
        as.filter (key · ≠ k) = before ++ after := by
  by_cases hk : ∃ a ∈ as, key a = k
  · obtain ⟨a, ha, rfl⟩ := hk
    obtain ⟨before, after, rfl⟩ := List.append_of_mem ha
    refine Or.inr ⟨before, a, after, rfl, rfl, ?_⟩
    have hmiddle := (List.perm_middle.map key).nodup_iff.1 hn
    rw [List.map_cons, List.nodup_cons] at hmiddle
    have hrest : (before ++ after).filter (key · ≠ key a) = before ++ after := by
      rw [List.filter_eq_self]
      intro b hb
      exact decide_eq_true fun he => hmiddle.1 (he ▸ List.mem_map_of_mem hb)
    rw [← hrest, List.filter_append, List.filter_append, List.filter_cons_of_neg (by simp)]
  · refine Or.inl (List.filter_eq_self.2 fun a ha => ?_)
    exact decide_eq_true fun he => hk ⟨a, ha, he⟩

end Lists

namespace Settings

theorem filter_sortOperations (wanted : String → Bool) {ops : List Operation}
    (h : (ops.map (·.name)).Nodup) :
    (sortOperations ops).filter (wanted ∘ Operation.name) =
      sortOperations (ops.filter (wanted ∘ Operation.name)) := by
  have hperm : ((sortOperations ops).filter (wanted ∘ Operation.name)).Perm
      (sortOperations (ops.filter (wanted ∘ Operation.name))) :=
    ((List.mergeSort_perm ops _).filter _).trans (List.mergeSort_perm _ _).symm
  have hkept : ((ops.filter (wanted ∘ Operation.name)).map (·.name)).Nodup :=
    h.sublist (List.filter_sublist.map _)
  refine hperm.eq_of_pairwise ?_ ((pairwise_sortOperations h).sublist List.filter_sublist)
    (pairwise_sortOperations hkept)
  intro a b _ _ hab hba
  exact absurd (String.lt_trans hab hba) (String.lt_irrefl a.name)

/-- Leaving out operations by name and arranging the rest can be done in either order. -/
theorem filter_arrange (s : Settings) (wanted : String → Bool) (ops : List Operation) :
    (s.arrange ops).filter (wanted ∘ Operation.name) =
      s.arrange (ops.filter (wanted ∘ Operation.name)) := by
  have hmap : ∀ ops : List Operation,
      (ops.map s.arrangeOperation).filter (wanted ∘ Operation.name) =
        (ops.filter (wanted ∘ Operation.name)).map s.arrangeOperation := by
    intro ops
    rw [List.filter_map]
    rfl
  have hfirst := nodup_firstOfEach Operation.name [] ops
  rw [s.arrange_eq_view, s.arrange_eq_view (ops.filter _), arrange_plain, arrange_plain,
    firstOfEach_filter wanted (fun _ _ => Iff.rfl)]
  cases ho : s.operationOrder with
  | registration => simp only [view, ho, hmap]
  | name =>
    simp only [view, ho]
    rw [filter_sortOperations, hmap]
    rw [List.map_map]
    exact hfirst

theorem mem_names_arrange_iff {s : Settings} {ops : List Operation} {n : String} :
    n ∈ (s.arrange ops).map (·.name) ↔ n ∈ ops.map (·.name) := by
  rw [arrange_eq_view, arrange_plain, ((s.view_perm _).map (·.name)).mem_iff, List.map_map]
  exact mem_map_firstOfEach_iff

end Settings

namespace Forest

variable {f g : Forest} {t base : TypeHandle} {d : TypeDefinition} {op : Operation}

/-- If new types only bring unwanted operations, the wanted ones are those of the old forest. -/
theorem Extends.filter_operations (h : f.Extends g) (hbase : (f.entry? base).isSome)
    {rootNames : List String} {wanted : Operation → Bool}
    (hold : ∀ t op, f.operation? rootNames t = some op → t ∈ f.subtypes base → wanted op = true)
    (hnew : ∀ t op, g.operation? rootNames t = some op → f.entry? t = none → wanted op = false) :
    ((g.subtypes base).filterMap (g.operation? rootNames)).filter wanted =
      (f.subtypes base).filterMap (f.operation? rootNames) := by
  rw [← h.known_subtypes hbase] at hold ⊢
  generalize g.subtypes base = order at hold
  -- The induction is on the visit of the extended forest, where new types may come anywhere.
  induction order with
  | nil => rfl
  | cons t order ih =>
    cases he : f.entry? t with
    | none =>
      rw [known_cons_of_none he] at hold ⊢
      rw [List.filterMap_cons]
      cases ho : g.operation? rootNames t with
      | none => exact ih hold
      | some op =>
        rw [List.filter_cons_of_neg (by simp [hnew t op ho he])]
        exact ih hold
    | some e =>
      rw [known_cons_of_some he] at hold ⊢
      have hrest := ih fun u op hop hu => hold u op hop (List.mem_cons_of_mem t hu)
      rw [List.filterMap_cons, List.filterMap_cons,
        h.operation? (Option.isSome_of_eq_some he) rootNames]
      cases ho : f.operation? rootNames t with
      | none => exact hrest
      | some op =>
        rw [List.filter_cons_of_pos (hold t op ho List.mem_cons_self), hrest]

/-- Whatever a new type brings has the nickname of its definition. -/
theorem nickname_of_operation? {r : TypeHandle × Forest} (h : f.register d = .ok r)
    (ht : f.entry? t = none) {rootNames : List String}
    (hop : r.2.operation? rootNames t = some op) :
    d.nickname = some op.name := by
  obtain ⟨new, -, -, hreal, -, rfl⟩ := ok_of_register h
  obtain ⟨n, ⟨e, he, -, -, -, hn, -⟩, rfl⟩ := operation?_eq_some_iff.1 hop
  rw [Forest.entry?_insert, ht] at he
  split at he
  · cases he
    rw [← hreal.nickname]
    exact hn
  · cases he

variable {s : Settings}

/-- The operations discovered without a type are those discovered with it, less the one that
has its nickname. -/
theorem WellFormed.filter_discovered (hf : f.WellFormed) {r : TypeHandle × Forest}
    (h : f.register d = .ok r) (hbase : (f.entry? base).isSome)
    (unused : ∀ n, d.nickname = some n → n ≠ "" →
      n ∉ (f.discovered s base).operations.map (·.name)) :
    (r.2.discovered s base).operations.filter (fun op => some op.name ≠ d.nickname) =
      (f.discovered s base).operations := by
  have hops : ((r.2.subtypes base).filterMap (r.2.operation? s.rootTypes)).filter
      ((fun n => decide (some n ≠ d.nickname)) ∘ Operation.name) =
        (f.subtypes base).filterMap (f.operation? s.rootTypes) := by
    apply (hf.extends_register h).filter_operations hbase
    · intro t op hop ht
      refine decide_eq_true fun hname => ?_
      obtain ⟨n, ⟨e, -, -, -, -, -, hne⟩, rfl⟩ := operation?_eq_some_iff.1 hop
      apply unused n hname.symm hne
      exact Settings.mem_names_arrange_iff.2
        (List.mem_map.2 ⟨_, List.mem_filterMap.2 ⟨t, ht, hop⟩, rfl⟩)
    · intro t op hop ht
      exact decide_eq_false (not_not_intro (nickname_of_operation? h ht hop).symm)
  have hfilter := s.filter_arrange (fun n => decide (some n ≠ d.nickname))
    ((r.2.subtypes base).filterMap (r.2.operation? s.rootTypes))
  rw [hops] at hfilter
  exact hfilter

/-- The enumerated types that a discovered catalogue mentions are registered. -/
theorem WellFormed.mem_names_of_mentions (hf : f.WellFormed) {w : World Process} {c : Catalog}
    (h : (w.introspect f.registry s).1 = .ok c) {n : String} (hn : c.Mentions n) : n ∈ f.names := by
  obtain ⟨op, hop, a, ha, hname⟩ := hn
  have hk : a.kind.namesEnum = true := by
    obtain ⟨spec, -, rfl⟩ := World.exists_offers_of_introspect h hop ha
    by_contra hk
    simp only [Registry.classify] at hk hname
    rw [if_neg hk] at hname
    cases hname
  obtain ⟨spec, e, -, -, he, hmention, -⟩ := hf.enum?_of_introspect h hop ha hk
  cases hmention.symm.trans hname
  exact List.mem_map_of_mem (mem_entries_of_some he)

/-- If no operation is lost to an extension, neither is an enumerated type. -/
theorem Extends.mem_enums (h : f.Extends g) {w : World Process} {c c' : Catalog}
    (found : (w.introspect f.registry s).1 = .ok c)
    (found' : (w.introspect g.registry s).1 = .ok c')
    (kept : ∀ op ∈ c.operations, op ∈ c'.operations) {e : EnumType} (he : e ∈ c.enums) :
    e ∈ c'.enums := by
  rw [(World.enums_of_introspect found).1] at he
  obtain ⟨n, hn, rfl⟩ := List.mem_map.1 he
  obtain ⟨hne, op, hop, a, ha, hname⟩ := Catalog.mem_referencedEnums_iff.1 hn
  have hnames := h.old.mem_names_of_mentions found ⟨op, hop, a, ha, hname⟩
  rw [(World.enums_of_introspect found').1, ← h.enumType hnames]
  exact List.mem_map_of_mem
    (Catalog.mem_referencedEnums_iff.2 ⟨hne, op, kept op hop, a, ha, hname⟩)

end Forest

/-- One more type does not disturb a discovery without limits: if its nickname is not that of an
operation, there is at most one new operation, which has the nickname, and everything else is
as it was. This goes for every name that the type may take. -/
theorem Host.introspect_of_register {h h' : Host} {d : TypeDefinition} {t : TypeHandle}
    {s : Settings} {c : Catalog} (grown : h.forest.Grown) (registered : h.register d = (.ok t, h'))
    (unlimited : s.limits = {}) (found : (h.world.introspect h.forest.registry s).1 = .ok c)
    (unused : ∀ n, d.nickname = some n → n ≠ "" → n ∉ c.operations.map (·.name)) :
    ∃ c', (h'.world.introspect h'.forest.registry s).1 = .ok c' ∧
      (c'.operations = c.operations ∨
        ∃ before op after, c'.operations = before ++ op :: after ∧
          c.operations = before ++ after ∧ d.nickname = some op.name) ∧
      ∀ e ∈ c.enums, e ∈ c'.enums := by
  have hf := grown.wellFormed
  obtain ⟨r, hr, rfl⟩ : ∃ r, h.forest.register d = .ok r ∧ h' = { h with forest := r.2 } := by
    rw [register] at registered
    cases hr : h.forest.register d with
    | error e => simp [hr] at registered
    | ok r =>
      rw [hr] at registered
      exact ⟨r, rfl, (Prod.mk.inj registered).2.symm⟩
  obtain ⟨base, hbase, rfl⟩ := Forest.ok_of_introspect found
  obtain ⟨valid, started, -⟩ := World.introspect_eq_ok_iff.1 found
  have hext := hf.extends_register hr
  have hok : (h.world.introspect r.2.registry s).1 = .ok (r.2.discovered s base) := by
    have hstart : h.world.start r.2.registry = h.world.start h.forest.registry := rfl
    rw [r.2.introspect_eq_discovered h.world valid unlimited (by rw [hstart]; exact started),
      hext.lookup hbase]
  obtain ⟨e, he, -⟩ := hf.entry?_of_lookup? hbase
  have hfilter := hf.filter_discovered hr (Option.isSome_of_eq_some he) unused
  have hnodup : ((r.2.discovered s base).operations.map fun op => some op.name).Nodup := by
    have hnames := World.nodup_of_introspect hok
    rw [List.nodup_iff_pairwise_ne, List.pairwise_map] at hnames ⊢
    exact hnames.imp fun hne he => hne (Option.some.inj he)
  refine ⟨_, hok, ?_, ?_⟩
  · rcases filter_eq_or_exists_append hnodup d.nickname with
      heq | ⟨before, op, after, heq, hname, hrest⟩
    · exact Or.inl (heq.symm.trans hfilter)
    · exact Or.inr ⟨before, op, after, heq, hfilter.symm.trans hrest, hname.symm⟩
  · intro enum henum
    refine hext.mem_enums found hok (fun op hop => ?_) henum
    rw [← hfilter] at hop
    exact (List.mem_filter.1 hop).1

/-- A base type of its own making and an operation that gives a picture, without standard types. -/
def bareTypes : List TypeDefinition :=
  [((TypeDefinition.named "VipsOperation").withFundamental .object).asAbstract,
    (TypeDefinition.named "Picture").withFundamental .object,
    ((TypeDefinition.named "VipsBlack").withParent "VipsOperation").withNickname "black"
      |>.addArgument { name := "out", typeName := "Picture", flags := ParamFlag.requiredOutput }]

def Host.bare : Host := (Host.empty.registerAll bareTypes).2

/-- An operation that takes the name of the type that makes its subtypes images. -/
def lateImage : TypeDefinition :=
  ((TypeDefinition.named "VipsImage").withParent "VipsOperation").withNickname "image"

theorem Host.introspect_of_register_bare :
    ∃ c c', (bare.world.introspect bare.forest.registry {}).1 = .ok c ∧
      ((bare.register lateImage).2.world.introspect
        (bare.register lateImage).2.forest.registry {}).1 = .ok c' ∧
      c'.operations.map (·.name) = ["black", "image"] ∧
      (c'.operations = c.operations ∨
        ∃ before op after, c'.operations = before ++ op :: after ∧
          c.operations = before ++ after ∧ lateImage.nickname = some op.name) := by
  have grown : bare.forest.Grown := Forest.Grown.empty.registerAll bareTypes
  have registered : bare.register lateImage = (.ok ⟨4⟩, (bare.register lateImage).2) := by rfl
  have unused : ∀ n, lateImage.nickname = some n → n ≠ "" → n ∉ ["black"] := by
    rintro _ ⟨⟩ -
    decide
  obtain ⟨c', hok, hops, -⟩ := introspect_of_register (s := {}) grown registered rfl rfl unused
  refine ⟨_, c', rfl, hok, ?_, hops⟩
  have hrun : ((bare.register lateImage).2.world.introspect
      (bare.register lateImage).2.forest.registry {}).1.map (·.operations.map (·.name)) =
        .ok ["black", "image"] := by rfl
  rw [hok] at hrun
  exact Except.ok.inj hrun

end OpCatalog
