import OpCatalog.Proofs.Creation
import OpCatalog.Proofs.Sessions

/-!
# After the end

A shutdown refuses every later start, but nothing else looks at it. So a handle that was held
before goes on as if nothing had happened, and `discovers_after_shutdown_iff` says which calls
still make objects and find operations: none but those through such a handle, and of those all
that would do so without the shutdown.
-/
namespace OpCatalog

variable {ι σ : Type}

namespace Registry

/-- The registry with a count of the objects that have been made. -/
def counted (reg : Registry σ) : Registry (σ × Nat) where
  lookup? := reg.lookup?
  typeName? := reg.typeName?
  nickname? := reg.nickname?
  parent? := reg.parent?
  isAbstract := reg.isAbstract
  subtypes := reg.subtypes
  traits? := reg.traits?
  members? := reg.members?
  instantiate t p :=
    ((reg.instantiate t p.1).1, (reg.instantiate t p.1).2,
      p.2 + if (reg.instantiate t p.1).1.isSome then 1 else 0)
  release object p := (reg.release object p.1, p.2)
  description? object p := reg.description? object p.1
  parameters object p := reg.parameters object p.1
  startUp p := ((reg.startUp p.1).1, (reg.startUp p.1).2, p.2)
  tearDown p := (reg.tearDown p.1, p.2)
  size := reg.size
  parents_finite := reg.parents_finite

theorem counts_counted (reg : Registry σ) (b : ι) : (reg.counted.recorded b).Counts (·.1.2) where
  instantiate := fun _ _ => rfl
  release := fun _ _ => rfl

theorem makesAny_counted (reg : Registry σ) (b : ι) (ts : List TypeHandle)
    (state : (σ × Nat) × List (Upkeep ι)) :
    (reg.counted.recorded b).makesAny ts state = reg.makesAny ts state.1.1 := by
  induction ts generalizing state with
  | nil => rfl
  | cons t ts ih =>
    rw [makesAny, makesAny, ih, ih]
    rfl

/-- Neither the count nor the record has a part in what a question comes to. -/
theorem makes_counted (reg : Registry σ) (b : ι) (state : (σ × Nat) × List (Upkeep ι))
    (q : Query) : (reg.counted.recorded b).makes state q = reg.makes state.1.1 q := by
  have hbelow : ∀ s, (reg.counted.recorded b).makesBelow s state = reg.makesBelow s state.1.1 :=
    fun s => by simp only [makesBelow, makesAny_counted]; rfl
  cases q with
  | catalog s => rw [makes, makes, hbelow]
  | operations s => rw [makes, makes, hbelow]
  | enums s names => rfl
  | inspect rootNames limit t name => rfl

end Registry

namespace Session

variable (backends : ι → Registry σ)

/-- A session in which the objects are counted. -/
def counting (state : σ) (calls : List (Call ι)) : Session ι (σ × Nat) :=
  run (fun b => (backends b).counted) (state, 0) calls

/-- The number of objects that have been made. -/
def made (s : Session ι (σ × Nat)) : Nat := s.world.state.1.2

/-- The operations that a call is answered with. -/
def found (s : Session ι σ) : Call ι → List Operation
  | .introspect b settings =>
    ((s.world.introspect ((backends b).recorded b) settings).1.toOption.map (·.operations)).getD []
  | .ask place q =>
    match s.held[place]? with
    | none => []
    | some b => ((backends b).recorded b).found s.world.state q
  | _ => []

/-- The call makes an object or is answered with an operation. -/
def Discovers (s : Session ι (σ × Nat)) (call : Call ι) : Prop :=
  s.made < (s.after (fun b => (backends b).counted) call).made ∨
    s.found (fun b => (backends b).counted) call ≠ []

/-! ## One call -/

variable {s : Session ι σ} {call : Call ι}

theorem held_after_sublist (shut : s.world.lifecycle.isShutDown) (call : Call ι) :
    (s.after backends call).held.Sublist s.held := by
  cases call with
  | init b =>
    rw [after, World.start_of_isShutDown shut]
    exact List.Sublist.refl _
  | introspect b settings => exact List.Sublist.refl _
  | ask place q =>
    rw [after]
    split
    · exact List.Sublist.refl _
    · exact List.Sublist.refl _
  | shutdown place =>
    rw [after]
    split
    · exact List.Sublist.refl _
    · exact List.eraseIdx_sublist _ _
  | drop place => exact List.eraseIdx_sublist _ _

/-- Only a question that is put through a handle can do something after the end. -/
theorem after_of_isShutDown (shut : s.world.lifecycle.isShutDown) (call : Call ι) :
    (∃ place q b, call = .ask place q ∧ s.held[place]? = some b) ∨
      (s.after backends call).world = s.world ∧ s.found backends call = [] := by
  cases call with
  | init b =>
    refine Or.inr ⟨?_, rfl⟩
    rw [after, World.start_of_isShutDown shut]
  | introspect b settings =>
    refine Or.inr ⟨?_, ?_⟩
    · rw [after, World.introspect_snd, World.start_of_isShutDown shut]
      split
      · rfl
      · rfl
    · rw [found]
      cases hc : (s.world.introspect ((backends b).recorded b) settings).1 with
      | error e => rfl
      | ok c =>
        obtain ⟨-, started, -⟩ := World.introspect_eq_ok_iff.1 hc
        rw [World.start_of_isShutDown shut] at started
        cases started
  | ask place q =>
    cases hb : s.held[place]? with
    | none => exact Or.inr ⟨by simp only [after, hb], by simp only [found, hb]⟩
    | some b => exact Or.inl ⟨place, q, b, rfl, hb⟩
  | shutdown place =>
    refine Or.inr ⟨?_, rfl⟩
    rw [after]
    split
    · rfl
    · rw [World.stop, if_pos shut]
  | drop place => exact Or.inr ⟨rfl, rfl⟩

theorem discovers_iff_of_isShutDown {s : Session ι (σ × Nat)}
    (shut : s.world.lifecycle.isShutDown) :
    s.Discovers backends call ↔ ∃ place q b, call = .ask place q ∧ s.held[place]? = some b ∧
      (backends b).makes s.world.state.1.1 q := by
  constructor
  · intro hd
    obtain ⟨place, q, b, rfl, hb⟩ | ⟨hworld, hfound⟩ :=
      s.after_of_isShutDown (fun b => (backends b).counted) shut call
    · refine ⟨place, q, b, rfl, hb, ?_⟩
      simp only [Discovers, made, after, found, hb] at hd
      have hm := ((backends b).counts_counted b).asks_iff.1 hd
      rwa [Registry.makes_counted] at hm
    · rcases hd with hlt | hne
      · rw [made, made, hworld] at hlt
        exact absurd hlt (Nat.lt_irrefl _)
      · exact absurd hfound hne
  · rintro ⟨place, q, b, rfl, hb, hm⟩
    simp only [Discovers, made, after, found, hb]
    refine ((backends b).counts_counted b).asks_iff.2 ?_
    rwa [Registry.makes_counted]

/-! ## Runs -/

theorem held_run_sublist (later : List (Call ι)) {s : Session ι σ}
    (shut : s.world.lifecycle.isShutDown) :
    (later.foldl (after backends) s).held.Sublist s.held := by
  induction later generalizing s with
  | nil => exact List.Sublist.refl _
  | cons call later ih =>
    exact (ih ((keeps_after backends s call).isShutDown shut)).trans
      (held_after_sublist backends shut call)

/-- After a shutdown no handle comes to those that are still held. Whatever is done then, a call
makes an object or finds an operation exactly if it puts a question through one of these handles,
and one that comes to a type of which an object can be made. So nothing is discovered after the
end if the handle that was used for it was the only one. -/
theorem discovers_after_shutdown_iff (backends : ι → Registry σ) (state : σ)
    (earlier later : List (Call ι)) (place : Nat) (call : Call ι)
    (held : place < (counting backends state earlier).held.length) :
    (counting backends state (earlier ++ .shutdown place :: later)).held.Sublist
        ((counting backends state earlier).held.eraseIdx place) ∧
      ((counting backends state (earlier ++ .shutdown place :: later)).Discovers backends call ↔
        ∃ place' q b, call = .ask place' q ∧
          (counting backends state (earlier ++ .shutdown place :: later)).held[place']? = some b ∧
          (backends b).makes
            (counting backends state (earlier ++ .shutdown place :: later)).world.state.1.1 q) ∧
      ((counting backends state earlier).held.length = 1 →
        ¬(counting backends state (earlier ++ .shutdown place :: later)).Discovers
          backends call) := by
  have hrun : counting backends state (earlier ++ .shutdown place :: later) =
      later.foldl (after fun b => (backends b).counted)
        ((counting backends state earlier).after (fun b => (backends b).counted)
          (.shutdown place)) := by
    rw [counting, run_append, List.foldl_cons]
    rfl
  obtain ⟨hshut, hheld⟩ := after_shutdown (fun b => (backends b).counted) held
  have hdown := (keeps_run (fun b => (backends b).counted) later _).isShutDown hshut
  have hsub := held_run_sublist (fun b => (backends b).counted) later hshut
  rw [hheld, ← hrun] at hsub
  rw [← hrun] at hdown
  refine ⟨hsub, discovers_iff_of_isShutDown backends hdown, ?_⟩
  intro hone hd
  obtain ⟨place', q, b, -, hb, -⟩ := (discovers_iff_of_isShutDown backends hdown).1 hd
  have hnil : (counting backends state earlier).held.eraseIdx place = [] := by
    rw [← List.length_eq_zero_iff, List.length_eraseIdx_of_lt held, hone]
  rw [hnil, List.sublist_nil] at hsub
  simp [hsub] at hb

/-- A host with one operation. -/
def blackHost : Host :=
  (Host.standard.register
    (((TypeDefinition.named "VipsBlack").withParent "VipsOperation").withNickname "black")).2

/-- Of two handles the first is used for the shutdown. The other one finds the operation as long
as it is held. -/
theorem discovers_after_shutdown_iff_black :
    (counting (fun _ => blackHost.forest.registry) {}
        [.init (), .init (), .shutdown 0]).Discovers
      (fun _ => blackHost.forest.registry) (.ask 0 (.operations {})) ∧
    ∀ call, ¬(counting (fun _ => blackHost.forest.registry) {}
        [.init (), .init (), .shutdown 0, .drop 0]).Discovers
      (fun _ => blackHost.forest.registry) call := by
  constructor
  · exact (discovers_after_shutdown_iff (fun _ => blackHost.forest.registry) {}
      [.init (), .init ()] [] 0 (.ask 0 (.operations {})) (by decide)).2.1.2
        ⟨0, .operations {}, (), rfl, rfl, rfl⟩
  · intro call hd
    obtain ⟨place, q, b, -, hb, -⟩ := (discovers_after_shutdown_iff
      (fun _ => blackHost.forest.registry) {} [.init (), .init ()] [.drop 0] 0 call
      (by decide)).2.1.1 hd
    cases hb

/-- The handle that is left makes an object of a runtime that has been shut down, and finds an
operation. -/
theorem exists_discovers_after_shutdown :
    ∃ (s : Session Unit (Process × Nat)) (call : Call Unit),
      s = counting (fun _ => blackHost.forest.registry) {} [.init (), .init (), .shutdown 0] ∧
      s.world.lifecycle.isShutDown ∧ s.made = 0 ∧
      (s.after (fun _ => blackHost.forest.registry.counted) call).made = 1 ∧
      (s.found (fun _ => blackHost.forest.registry.counted) call).map (·.name) = ["black"] :=
  ⟨_, .ask 0 (.operations {}), rfl, rfl, rfl, rfl, rfl⟩

end Session

end OpCatalog
