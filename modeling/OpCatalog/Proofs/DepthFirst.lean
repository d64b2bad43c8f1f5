import OpCatalog.Proofs.Extension
import OpCatalog.Proofs.Registrations

/-!
# Depth-first order

A visit is a loop over a stack with no record of what it has visited, so nothing in it says that
it ends or that it meets a type only once. In a forest it does both: `depthFirst_subtypes` says
that it goes through a type and everything derived from it as the recursion on children does, and
what that means for the place of each type in the order.
-/
namespace OpCatalog

namespace Forest

variable {f : Forest} {t u p base : TypeHandle} {ts order before after : List TypeHandle}

/-- The loop that a visit is: the type on top of the stack is visited and its children take its
place, until the stack is empty. -/
inductive Visits (f : Forest) : List TypeHandle → List TypeHandle → Prop
  | done : Visits f [] []
  | next {t : TypeHandle} {stack order : List TypeHandle} :
    Visits f (((f.entry? t).map (·.children)).getD [] ++ stack) order →
      Visits f (t :: stack) (t :: order)

/-- Of two children of one type, the one registered earlier comes first. -/
def SiblingOrder (f : Forest) (t u : TypeHandle) : Prop :=
  ∀ p, f.parent? t = some p → f.parent? u = some p → t.raw < u.raw

/-- The order in which a type and everything derived from it are visited depth first. -/
structure DepthFirst (f : Forest) (base : TypeHandle) (order : List TypeHandle) : Prop where
  /-- The loop ends, and these are the types that it has visited. -/
  visits : f.Visits [base] order
  /-- The recursion on children gives the same order. -/
  preorder_iff : ∀ order', f.Preorder [base] order' ↔ order' = order
  mem_iff : ∀ t, t ∈ order ↔ (f.entry? t).isSome ∧ f.isA t base = true
  nodup : order.Nodup
  parent_before : ∀ before t after, order = before ++ t :: after →
    t = base ∨ ∃ p ∈ before, f.parent? t = some p
  siblings : order.Pairwise f.SiblingOrder
  /-- What derives from a type stands together. -/
  block : ∀ t ∈ order, f.subtypes t <:+: order

/-! ## The loop -/

/-- The loop goes through the trees on its stack as the recursion does. -/
theorem Preorder.visits (h : f.Preorder ts order) : f.Visits ts order := by
  -- One round takes the children of the top onto the stack, so the order left gets shorter while
  -- the stack may grow.
  induction order generalizing ts with
  | nil =>
    cases h with
    | nil => exact Visits.done
  | cons t order ih =>
    cases h with
    | cons he hbelow hafter =>
      refine Visits.next ?_
      rw [he]
      exact ih (hbelow.append hafter)

/-! ## Places in the order -/

/-- A type is a root of the trees or stands after its parent. -/
theorem Preorder.parent_before (h : f.Preorder ts order) (hf : f.WellFormed)
    (hsplit : order = before ++ t :: after) : t ∈ ts ∨ ∃ p ∈ before, f.parent? t = some p := by
  induction h generalizing before after with
  | nil => simp at hsplit
  | @cons r e rest below others he hbelow hothers ih ih' =>
    cases before with
    | nil =>
      obtain ⟨rfl, -⟩ := List.cons.inj hsplit
      exact Or.inl List.mem_cons_self
    | cons first before =>
      obtain ⟨rfl, htail⟩ := List.cons.inj hsplit
      -- The type is below the first root or in one of the other trees.
      have hplace : (∃ before' after', before' ⊆ before ∧ below = before' ++ t :: after') ∨
          ∃ before' after', before' ⊆ before ∧ others = before' ++ t :: after' := by
        rcases List.append_eq_append_iff.1 htail with ⟨mid, hmid, hrest⟩ | ⟨mid, hmid, hrest⟩
        · exact Or.inr ⟨mid, after, by simp [hmid], hrest⟩
        · cases mid with
          | nil => exact Or.inr ⟨[], after, by simp, hrest.symm⟩
          | cons first mid =>
            obtain ⟨rfl, -⟩ := List.cons.inj hrest
            exact Or.inl ⟨before, mid, fun _ hp => hp, hmid⟩
      rcases hplace with ⟨before', after', hsub, heq⟩ | ⟨before', after', hsub, heq⟩
      · rcases ih heq with hchild | ⟨p, hp, hparent⟩
        · exact Or.inr ⟨r, List.mem_cons_self, (hf.mem_children_iff he).1 hchild⟩
        · exact Or.inr ⟨p, List.mem_cons_of_mem _ (hsub hp), hparent⟩
      · rcases ih' heq with hroot | ⟨p, hp, hparent⟩
        · exact Or.inl (List.mem_cons_of_mem _ hroot)
        · exact Or.inr ⟨p, List.mem_cons_of_mem _ (hsub hp), hparent⟩

/-- Whatever is visited below a type has its parent there, or the type itself. -/
theorem Preorder.parent_descends {e : TypeEntry} {below : List TypeHandle} (hf : f.WellFormed)
    (he : f.entry? t = some e) (hbelow : f.Preorder e.children below) (hu : u ∈ below)
    (hp : f.parent? u = some p) : f.Descends p t := by
  obtain ⟨c, hc, hdesc⟩ := hbelow.exists_descends hf hu
  have hchild := (hf.mem_children_iff he).1 hc
  cases hdesc with
  | refl =>
    cases hchild.symm.trans hp
    exact Descends.refl t
  | step hp' hup =>
    cases hp'.symm.trans hp
    exact hup.trans (Descends.step hchild (Descends.refl t))

theorem Preorder.siblings (h : f.Preorder ts order) (hf : f.WellFormed)
    (hapart : ts.Pairwise f.Apart) (hroots : ts.Pairwise f.SiblingOrder) :
    order.Pairwise f.SiblingOrder := by
  induction h with
  | nil => exact List.Pairwise.nil
  | @cons t e rest below others he hbelow hothers ih ih' =>
    obtain ⟨htapart, hrest⟩ := List.pairwise_cons.1 hapart
    obtain ⟨htfirst, hrestorder⟩ := List.pairwise_cons.1 hroots
    have hchildren : e.children.Pairwise f.SiblingOrder :=
      (hf.pairwise_children he).imp fun hlt _ _ _ => hlt
    refine List.pairwise_cons.2 ⟨?_, List.pairwise_append.2
      ⟨ih (hf.pairwise_apart_children he) hchildren, ih' hrest hrestorder, ?_⟩⟩
    · intro u hu p hpt hpu
      rcases List.mem_append.1 hu with hu | hu
      · -- The parent of `t` would derive from `t`.
        have hle := (parent_descends hf he hbelow hu hpu).le hf
        have hlt := (hf.parent_lt hpt).2
        omega
      · obtain ⟨r, hr, hdesc⟩ := hothers.exists_descends hf hu
        cases hdesc with
        | refl => exact htfirst _ hr p hpt hpu
        | step hp' hup =>
          cases hp'.symm.trans hpu
          exact absurd (Descends.step hpt hup) (htapart r hr).1
    · intro u hu v hv p hpu hpv
      have hvt : f.Descends v t := Descends.step hpv (parent_descends hf he hbelow hu hpu)
      obtain ⟨r, hr, hvr⟩ := hothers.exists_descends hf hv
      rcases hvt.comparable hvr with htr | hrt
      · exact absurd htr (htapart r hr).1
      · exact absurd hrt (htapart r hr).2

/-- The tree below a type is visited in one go. -/
theorem Preorder.exists_block (h : f.Preorder ts order) (ht : t ∈ order) :
    ∃ block, f.Preorder [t] block ∧ block <:+: order := by
  induction h with
  | nil => simp at ht
  | @cons r e rest below others he hbelow _ ih ih' =>
    rcases List.mem_cons.1 ht with rfl | ht
    · refine ⟨t :: (below ++ []), Preorder.cons he hbelow Preorder.nil, ?_⟩
      rw [List.append_nil]
      exact (List.prefix_append (t :: below) others).isInfix
    · rcases List.mem_append.1 ht with ht | ht
      · obtain ⟨block, hblock, hin⟩ := ih ht
        exact ⟨block, hblock, hin.trans ⟨[r], others, rfl⟩⟩
      · obtain ⟨block, hblock, hin⟩ := ih' ht
        exact ⟨block, hblock, hin.trans (List.suffix_append (r :: below) others).isInfix⟩

theorem Descends.isSome_of_base (h : f.Descends t base) (hbase : (f.entry? base).isSome) :
    (f.entry? t).isSome := by
  cases h with
  | refl => exact hbase
  | step hp _ => exact isSome_entry?_of_parent? hp

theorem WellFormed.depthFirst (hf : f.WellFormed) (hbase : (f.entry? base).isSome) :
    f.DepthFirst base (f.subtypes base) where
  visits := (hf.preorder_subtypes hbase).visits
  preorder_iff := by
    intro order'
    have h := hf.preorder_subtypes hbase
    exact ⟨fun h' => h'.unique h, fun he => he ▸ h⟩
  mem_iff := by
    intro t
    rw [hf.mem_subtypes_iff hbase]
    constructor
    · intro h
      have ht := h.isSome_of_base hbase
      exact ⟨ht, (hf.isA_iff ht).2 h⟩
    · rintro ⟨ht, hisA⟩
      exact (hf.isA_iff ht).1 hisA
  nodup := hf.nodup_subtypes base
  parent_before := by
    intro before t after hsplit
    rcases (hf.preorder_subtypes hbase).parent_before hf hsplit with hroot | hparent
    · exact Or.inl (List.mem_singleton.1 hroot)
    · exact Or.inr hparent
  siblings := (hf.preorder_subtypes hbase).siblings hf (List.pairwise_singleton _ _)
    (List.pairwise_singleton _ _)
  block := by
    intro t ht
    obtain ⟨block, hblock, hin⟩ := (hf.preorder_subtypes hbase).exists_block ht
    have hsome := ((hf.mem_subtypes_iff hbase).1 ht).isSome_of_base hbase
    rwa [hblock.unique (hf.preorder_subtypes hsome)] at hin

end Forest

namespace Host

variable {h : Host}

/-- Whatever has been registered, the visit of a registered type comes to an end and goes depth
first through the type and what derives from it; of any other type nothing is visited. -/
theorem depthFirst_subtypes (populated : h.Populated) (base : TypeHandle) :
    ((h.forest.entry? base).isSome →
      h.forest.DepthFirst base (h.forest.registry.subtypes base)) ∧
      (h.forest.entry? base = none → h.forest.registry.subtypes base = []) := by
  refine ⟨populated.grown.wellFormed.depthFirst, fun hnone => ?_⟩
  have hempty : h.forest.subtypes base = [] := by rw [Forest.subtypes, hnone]; rfl
  exact hempty

/-- Two branches below one type, registered by turns. -/
def branchedTypes : List TypeDefinition :=
  [(TypeDefinition.named "VipsUnary").withParent "VipsOperation",
    (TypeDefinition.named "VipsBinary").withParent "VipsOperation",
    (TypeDefinition.named "VipsInvert").withParent "VipsUnary",
    (TypeDefinition.named "VipsAdd").withParent "VipsBinary",
    (TypeDefinition.named "VipsNot").withParent "VipsInvert",
    (TypeDefinition.named "VipsAbs").withParent "VipsUnary"]

/-- The first branch is left only when nothing of it is left, and the handle after the last one
is that of no type. -/
theorem depthFirst_subtypes_branched :
    (standard.registerAll branchedTypes).2.forest.registry.subtypes ⟨3⟩ =
        [⟨3⟩, ⟨28⟩, ⟨30⟩, ⟨32⟩, ⟨33⟩, ⟨29⟩, ⟨31⟩] ∧
      (standard.registerAll branchedTypes).2.forest.DepthFirst ⟨3⟩
        [⟨3⟩, ⟨28⟩, ⟨30⟩, ⟨32⟩, ⟨33⟩, ⟨29⟩, ⟨31⟩] ∧
      (standard.registerAll branchedTypes).2.forest.registry.subtypes ⟨34⟩ = [] := by
  have populated : (standard.registerAll branchedTypes).2.Populated :=
    .registerAll branchedTypes .standard
  have horder : (standard.registerAll branchedTypes).2.forest.registry.subtypes ⟨3⟩ =
      [⟨3⟩, ⟨28⟩, ⟨30⟩, ⟨32⟩, ⟨33⟩, ⟨29⟩, ⟨31⟩] := by rfl
  refine ⟨horder, ?_, (depthFirst_subtypes populated ⟨34⟩).2 rfl⟩
  rw [← horder]
  exact (depthFirst_subtypes populated ⟨3⟩).1 rfl

end Host

end OpCatalog
