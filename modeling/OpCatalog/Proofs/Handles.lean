import Mathlib.Data.List.Nodup
import OpCatalog.Proofs.Inheritance
import OpCatalog.Proofs.Traffic

/-!
# Handles of objects

The table of live objects, the next handle and the count of objects are changed one by one, by
whoever makes or releases an object. `accounts_of_acts` says that they agree with the traffic after
every history: no handle is given out twice, and what the host answers about an object depends on
whether the object is held and on the type that it was made of.
-/
namespace OpCatalog

open Traffic

namespace Process

variable {p p' : Process} {log : List Traffic} {t : TypeHandle} {object : InstanceHandle}

/-- The live objects are those that are held, and no handle has been given out twice or is still
to come. -/
structure Tallies (p : Process) (log : List Traffic) : Prop where
  issued_le : ∀ object ∈ issued log, object.raw.toNat ≤ p.instantiations
  nodup_issued : (issued log).Nodup
  nodup_live : (p.live.map Prod.fst).Nodup
  mem_live_iff : ∀ object t, (object, t) ∈ p.live ↔ Held log object t

theorem tallies_nil : Tallies {} [] where
  issued_le := fun _ h => by cases h
  nodup_issued := List.nodup_nil
  nodup_live := List.nodup_nil
  mem_live_iff := fun _ _ => iff_of_false List.not_mem_nil not_held_nil

theorem Tallies.congr (h : p.Tallies log) (hlive : p'.live = p.live)
    (hcount : p'.instantiations = p.instantiations) : p'.Tallies log where
  issued_le := by
    rw [hcount]
    exact h.issued_le
  nodup_issued := h.nodup_issued
  nodup_live := by
    rw [hlive]
    exact h.nodup_live
  mem_live_iff := by
    rw [hlive]
    exact h.mem_live_iff

theorem nodup_filter_live (h : (p.live.map Prod.fst).Nodup) (object : InstanceHandle) :
    ((p.live.filter (·.1 != object)).map Prod.fst).Nodup :=
  (List.filter_sublist.map Prod.fst).nodup h

theorem mem_filter_live {entry : InstanceHandle × TypeHandle} :
    entry ∈ p.live.filter (·.1 != object) ↔ entry ∈ p.live ∧ entry.1 ≠ object := by
  rw [List.mem_filter, bne_iff_ne]

/-! ## One event -/

theorem Tallies.release (h : p.Tallies log) (object : InstanceHandle) :
    (p.release object).Tallies (log ++ [.released object]) where
  issued_le := by
    rw [issued_released]
    exact h.issued_le
  nodup_issued := by
    rw [issued_released]
    exact h.nodup_issued
  nodup_live := nodup_filter_live h.nodup_live object
  mem_live_iff := by
    intro o t
    rw [held_concat, ← h.mem_live_iff, Process.release, mem_filter_live]
    simp [eq_comm]

theorem Tallies.refused (h : p.Tallies log) (t : TypeHandle) :
    p.Tallies (log ++ [.refused t]) where
  issued_le := by
    rw [issued_refused]
    exact h.issued_le
  nodup_issued := by
    rw [issued_refused]
    exact h.nodup_issued
  nodup_live := h.nodup_live
  mem_live_iff := by
    intro o u
    rw [held_concat, h.mem_live_iff]
    simp

theorem Tallies.next_not_mem (h : p.Tallies log)
    (hnext : p.next.raw.toNat = p.instantiations + 1) : p.next ∉ issued log := by
  intro hmem
  have hle := h.issued_le _ hmem
  omega

/-- A new object takes the place of no other, since its handle has not been given out before. -/
theorem Tallies.create (h : p.Tallies log) (hnext : p.next.raw.toNat = p.instantiations + 1)
    (t : TypeHandle) : (p.create t).2.Tallies (log ++ [.made t p.next]) where
  issued_le := by
    intro o ho
    have hcount : (p.create t).2.instantiations = p.instantiations + 1 := rfl
    rw [issued_made, List.mem_append] at ho
    rw [hcount]
    rcases ho with ho | ho
    · exact Nat.le_succ_of_le (h.issued_le o ho)
    · rw [List.mem_singleton.1 ho, hnext]
  nodup_issued := by
    rw [issued_made, ← List.concat_eq_append]
    exact List.Nodup.concat (h.next_not_mem hnext) h.nodup_issued
  nodup_live := by
    refine List.nodup_cons.2 ⟨?_, nodup_filter_live h.nodup_live p.next⟩
    intro hmem
    obtain ⟨entry, hentry, heq⟩ := List.mem_map.1 hmem
    exact (mem_filter_live.1 hentry).2 heq
  mem_live_iff := by
    intro o u
    have hne : Held log o u → o ≠ p.next := by
      rintro hheld rfl
      exact h.next_not_mem hnext hheld.mem_issued
    have hlive : (p.create t).2.live = (p.next, t) :: p.live.filter (·.1 != p.next) := rfl
    -- No object that is held has the new handle, so the table loses no entry to it.
    rw [hlive, held_concat, List.mem_cons, mem_filter_live, h.mem_live_iff]
    constructor
    · rintro (heq | ⟨hheld, -⟩)
      · obtain ⟨rfl, rfl⟩ := Prod.mk.inj heq
        exact Or.inl rfl
      · exact Or.inr ⟨hheld, by simp⟩
    · rintro (heq | ⟨hheld, -⟩)
      · cases heq
        exact Or.inl rfl
      · exact Or.inr ⟨hheld, hne hheld⟩

/-! ## Looking up -/

theorem Tallies.typeOf?_eq_some_iff (h : p.Tallies log) :
    p.typeOf? object = some t ↔ Held log object t := by
  rw [← h.mem_live_iff, typeOf?]
  constructor
  · intro hlook
    obtain ⟨before, after, hsplit, -⟩ := List.lookup_eq_some_iff.1 hlook
    simp [hsplit]
  · intro hmem
    obtain ⟨before, after, hsplit⟩ := List.append_of_mem hmem
    have hnodup := h.nodup_live
    rw [hsplit, List.map_append, List.nodup_append] at hnodup
    refine List.lookup_eq_some_iff.2 ⟨before, after, hsplit, ?_⟩
    intro entry hentry
    have hne := hnodup.2.2 entry.1 (List.mem_map_of_mem hentry) object (by simp)
    simpa using hne.symm

theorem Tallies.typeOf?_eq_none_iff (h : p.Tallies log) :
    p.typeOf? object = none ↔ ∀ t, ¬Held log object t := by
  rw [Option.eq_none_iff_forall_ne_some]
  exact forall_congr' fun t => not_congr h.typeOf?_eq_some_iff

/-- The release of an object that is not live changes nothing. -/
theorem release_of_typeOf? (h : p.typeOf? object = none) : p.release object = p := by
  have hkept : p.live.filter (·.1 != object) = p.live := by
    rw [List.filter_eq_self]
    intro entry hentry
    have hne := List.lookup_eq_none_iff.1 h entry hentry
    exact bne_iff_ne.2 (bne_iff_ne.1 hne).symm
  rw [release, hkept]

end Process

/-- The process is what its traffic has made of it, for as long as the handles last. -/
structure Balanced (s : Process × List Traffic) : Prop where
  numbered : s.1.Numbered
  count : s.1.instantiations = (issued s.2).length
  tallies : s.1.instantiations < Process.capacity → s.1.Tallies s.2

namespace Balanced

variable {p p' : Process} {log : List Traffic} {s : Process × List Traffic}

theorem nil : Balanced ({}, []) where
  numbered := Process.numbered_empty
  count := rfl
  tallies := fun _ => Process.tallies_nil

theorem congr (h : Balanced (p, log)) (hlive : p'.live = p.live) (hnext : p'.next = p.next)
    (hcount : p'.instantiations = p.instantiations) : Balanced (p', log) where
  numbered := by
    rw [Process.Numbered, hlive, hnext, hcount]
    exact h.numbered
  count := hcount.trans h.count
  tallies := by
    rw [hcount]
    exact fun few => (h.tallies few).congr hlive hcount

theorem release (h : Balanced s) (object : InstanceHandle) :
    Balanced (s.1.release object, s.2 ++ [.released object]) where
  numbered := h.numbered.release object
  count := by
    rw [issued_released]
    exact h.count
  tallies := fun few => (h.tallies few).release object

/-- Asking for an object is balanced, whether or not one is made. -/
theorem instantiate (h : Balanced s) (f : Forest) (t : TypeHandle) :
    Balanced (f.registry.logged.instantiate t s).2 := by
  by_cases hi : f.isInstantiable t
  · have hmade : (f.registry.logged.instantiate t s).2 =
        ((s.1.create t).2, s.2 ++ [.made t s.1.next]) := by
      simp [Registry.logged, Forest.registry, hi, ofAnswer, Process.create]
    have hcount : (s.1.create t).2.instantiations = s.1.instantiations + 1 := rfl
    rw [hmade]
    refine ⟨h.numbered.create t, ?_, ?_⟩
    · rw [hcount, h.count, issued_made, List.length_append, List.length_singleton]
    · intro few
      have few' : s.1.instantiations < Process.capacity := Nat.lt_of_succ_lt few
      exact (h.tallies few').create (h.numbered few').1 t
  · have hrefused : (f.registry.logged.instantiate t s).2 = (s.1, s.2 ++ [.refused t]) := by
      simp [Registry.logged, Forest.registry, hi, ofAnswer]
    rw [hrefused]
    refine ⟨h.numbered, ?_, fun few => (h.tallies few).refused t⟩
    rw [issued_refused]
    exact h.count

theorem inspect (h : Balanced s) (f : Forest) (rootNames : List String) (limit : Option Nat)
    (t : TypeHandle) (name : String) :
    Balanced (f.registry.logged.inspect rootNames limit t name s).2 := by
  have hasked := h.instantiate f t
  rcases hi : f.registry.logged.instantiate t s with ⟨_ | object, s'⟩
  · rw [Registry.inspect_of_refused (by rw [hi])]
    exact hasked
  · rw [Registry.inspect_of_made hi]
    rw [hi] at hasked
    exact hasked.release object

/-- Every entry point keeps the balance, since an inspection does. -/
theorem follows (f : Forest) : f.registry.logged.Follows fun s s' => Balanced s → Balanced s' where
  refl := fun _ => id
  trans := fun h h' hs => h' (h hs)
  inspect := fun rootNames limit t name _ hs => hs.inspect f rootNames limit t name

theorem start {w : World (Process × List Traffic)} (h : Balanced w.state) (f : Forest) :
    Balanced (w.start f.registry.logged).2.state := by
  obtain ⟨-, hstart⟩ | ⟨-, _, -, hstart⟩ | ⟨-, -, hstart⟩ := w.start_cases f.registry.logged
  · rw [hstart]
    exact h
  · rw [hstart]
    exact h
  · rw [hstart]
    exact h.congr rfl rfl rfl

theorem act {l : LoggedHost} (h : Balanced l.world.state) (a : Host.Action) :
    Balanced (l.act a).world.state := by
  cases a with
  | register d =>
    rw [LoggedHost.act]
    cases l.forest.register d with
    | error e => exact h
    | ok r => exact h
  | instantiate t => exact h.instantiate l.forest t
  | release object => exact h.release object
  | introspect s =>
    simp only [LoggedHost.act, World.introspect_snd]
    split
    · exact h
    · split
      · exact (follows l.forest).afterQuery _ (.catalog s) (h.start l.forest)
      · exact h.start l.forest
  | ask q => exact (follows l.forest).afterQuery l.world.state q h
  | start => exact h.start l.forest
  | stop =>
    simp only [LoggedHost.act, World.stop]
    split
    · exact h
    · exact h.congr rfl rfl rfl
  | failStart reason => exact h.congr rfl rfl rfl

theorem acts {l : LoggedHost} (h : Balanced l.world.state) (actions : List Host.Action) :
    Balanced (actions.foldl LoggedHost.act l).world.state := by
  induction actions generalizing l with
  | nil => exact h
  | cons a actions ih => exact ih (h.act a)

end Balanced

/-! ## Answers -/

namespace Forest

variable {f : Forest} {t : TypeHandle} {p : Process} {object : InstanceHandle}

theorem next_of_instantiate (h : (f.registry.instantiate t p).1 = some object) :
    p.next = object := by
  by_cases hi : f.isInstantiable t
  · simpa [registry, hi, Process.create] using h
  · simp [registry, hi] at h

theorem instantiate_snd_of_refused (h : (f.registry.instantiate t p).1 = none) :
    (f.registry.instantiate t p).2 = p := by
  by_cases hi : f.isInstantiable t
  · simp [registry, hi] at h
  · simp [registry, hi]

/-- Without a type there is nothing to answer for. -/
theorem silent_of_typeOf? (f : Forest) (h : p.typeOf? object = none) :
    f.registry.description? object p = none ∧ f.registry.parameters object p = [] := by
  constructor
  · simp only [registry, h, Option.bind_eq_bind, Option.bind_none]
  · simp only [registry, h]

end Forest

/-- A live object answers with the description of its type and the parameters of its line. -/
theorem Host.Reachable.answers_of_live {h : Host} (hr : h.Reachable) {object : InstanceHandle}
    {t : TypeHandle} (hlive : h.world.state.typeOf? object = some t) :
    ∃ e line, h.forest.entry? t = some e ∧ h.forest.Line t line ∧
      h.forest.registry.description? object h.world.state = e.description ∧
      h.forest.registry.parameters object h.world.state = line.flatMap (·.parameters) := by
  have hf := hr.grown.wellFormed
  have hsome := Forest.isSome_entry?_of_isInstantiable (hr.isInstantiable_of_live hlive)
  obtain ⟨e, he⟩ := Option.isSome_iff_exists.1 hsome
  obtain ⟨line, hline⟩ := hf.exists_line hsome
  refine ⟨e, line, he, hline, ?_, ?_⟩
  · simp only [Forest.registry, hlive, he, Option.bind_eq_bind, Option.bind_some]
  · rw [← hline.parametersOf_eq hf]
    simp only [Forest.registry, hlive]

namespace LoggedHost

variable {l : LoggedHost}

/-- What the host answers about objects is what the traffic says of them. -/
structure Accounts (l : LoggedHost) : Prop where
  /-- No handle has been given out twice. -/
  nodup_issued : (issued l.log).Nodup
  /-- The handle that is given out next has not been given out yet. -/
  fresh : ∀ t object, (l.forest.registry.instantiate t l.host.world.state).1 = some object →
    object ∉ issued l.log
  typeOf?_eq_some_iff : ∀ object t,
    l.host.world.state.typeOf? object = some t ↔ Held l.log object t
  /-- An object that is held answers for the type that it was made of. -/
  answers : ∀ object t, Held l.log object t →
    ∃ e line, l.forest.entry? t = some e ∧ l.forest.Line t line ∧
      l.forest.registry.description? object l.host.world.state = e.description ∧
      l.forest.registry.parameters object l.host.world.state = line.flatMap (·.parameters)
  /-- Any other object answers for none, and its release changes nothing. -/
  silent : ∀ object, (∀ t, ¬Held l.log object t) →
    l.forest.registry.description? object l.host.world.state = none ∧
      l.forest.registry.parameters object l.host.world.state = [] ∧
      l.host.act (.release object) = l.host
  liveCount_eq : ∃ objects : List InstanceHandle, objects.Nodup ∧
    (∀ object, object ∈ objects ↔ ∃ t, Held l.log object t) ∧ l.host.liveCount = objects.length
  instantiations_eq : l.host.world.state.instantiations = (issued l.log).length
  refused : ∀ t, (l.forest.registry.instantiate t l.host.world.state).1 = none →
    l.host.act (.instantiate t) = l.host

theorem accounts_of_balanced (hb : Balanced l.world.state) (reachable : l.host.Reachable)
    (few : (issued l.log).length < Process.capacity) : l.Accounts := by
  have few' : l.world.state.1.instantiations < Process.capacity := by rwa [hb.count]
  have h := hb.tallies few'
  exact
  { nodup_issued := h.nodup_issued
    fresh := by
      intro t object hmade
      rw [← Forest.next_of_instantiate hmade]
      exact h.next_not_mem (hb.numbered few').1
    typeOf?_eq_some_iff := fun object t => h.typeOf?_eq_some_iff
    answers := fun object t hheld => reachable.answers_of_live (h.typeOf?_eq_some_iff.2 hheld)
    silent := by
      intro object hnot
      have hnone : l.host.world.state.typeOf? object = none := h.typeOf?_eq_none_iff.2 hnot
      obtain ⟨hdescription, hparameters⟩ := Forest.silent_of_typeOf? l.forest hnone
      refine ⟨hdescription, hparameters, ?_⟩
      exact congrArg (fun p => Host.mk l.forest ⟨l.world.lifecycle, p⟩)
        (Process.release_of_typeOf? hnone)
    liveCount_eq := by
      refine ⟨l.world.state.1.live.map Prod.fst, h.nodup_live, ?_, ?_⟩
      · intro object
        rw [List.mem_map]
        constructor
        · rintro ⟨⟨_, t⟩, hmem, rfl⟩
          exact ⟨t, (h.mem_live_iff _ t).1 hmem⟩
        · rintro ⟨t, hheld⟩
          exact ⟨(object, t), (h.mem_live_iff object t).2 hheld, rfl⟩
      · rw [List.length_map]
        rfl
    instantiations_eq := hb.count
    refused := by
      intro t hnone
      exact congrArg (fun p => Host.mk l.forest ⟨l.world.lifecycle, p⟩)
        (Forest.instantiate_snd_of_refused hnone) }

/-- After any history in which the handles have lasted, the record of the traffic has left the host
as it would be without, and what the host answers about objects is what the record says: handles
are given out once, live are the objects made and not released since, with what their type
describes, and the counts are those of the record. -/
theorem accounts_of_acts {start : Host} (hstart : start = .empty ∨ start = .standard)
    (actions : List Host.Action)
    (few : (issued (actions.foldl act (ofHost start)).log).length < Process.capacity) :
    (actions.foldl act (ofHost start)).host = actions.foldl Host.act start ∧
      (actions.foldl act (ofHost start)).Accounts := by
  have hhost : (actions.foldl act (ofHost start)).host = actions.foldl Host.act start :=
    host_acts (ofHost start) actions
  have reachable : start.Reachable := by
    rcases hstart with rfl | rfl
    · exact Host.Reachable.empty
    · exact Host.Reachable.standard
  have hbalanced : Balanced (ofHost start).world.state := by
    rcases hstart with rfl | rfl
    · exact Balanced.nil
    · exact Balanced.nil
  refine ⟨hhost, accounts_of_balanced (hbalanced.acts actions) ?_ few⟩
  rw [hhost]
  exact reachable.acts actions

/-- Both operations of `crowdedTypes`; a handle is released before it is given out and twice
afterwards, an abstract type is refused, and a discovery makes and releases two objects of its
own while one is live. -/
def busy : List Host.Action :=
  Host.crowdedTypes.map .register ++
    [.release ⟨1⟩, .instantiate ⟨28⟩, .instantiate ⟨29⟩, .release ⟨1⟩, .release ⟨1⟩,
      .instantiate ⟨3⟩, .introspect {}, .instantiate ⟨28⟩]

theorem accounts_of_acts_busy :
    (busy.foldl act (ofHost .standard)).Accounts ∧
      issued (busy.foldl act (ofHost .standard)).log = [⟨1⟩, ⟨2⟩, ⟨3⟩, ⟨4⟩, ⟨5⟩] ∧
      (busy.foldl Host.act .standard).world.state.live = [(⟨5⟩, ⟨28⟩), (⟨2⟩, ⟨29⟩)] ∧
      (busy.foldl Host.act .standard).world.state.instantiations = 5 := by
  have hlog : issued (busy.foldl act (ofHost .standard)).log = [⟨1⟩, ⟨2⟩, ⟨3⟩, ⟨4⟩, ⟨5⟩] := by rfl
  obtain ⟨hhost, haccounts⟩ := accounts_of_acts (Or.inr rfl) busy (by rw [hlog]; decide)
  refine ⟨haccounts, hlog, ?_, ?_⟩
  · rw [← hhost]
    rfl
  · rw [← hhost]
    rfl

end LoggedHost

end OpCatalog
