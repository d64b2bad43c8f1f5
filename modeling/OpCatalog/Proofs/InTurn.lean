import Mathlib.Data.List.Nodup

/-!
# Lists taken in turn

A check that goes through a list looks at each entry together with those before it. `InTurn` says
of every entry what the check asks of one, and `reports` lists what it has to say of them, with
nothing left out after the first complaint. `firstOf` is the outcome of a check that stops there.
-/
namespace OpCatalog

variable {α β γ ε : Type} {p q : List α → α → Prop} {l : List α}

/-- Each entry of the list stands in the relation to those before it. -/
def InTurn (p : List α → α → Prop) (l : List α) : Prop :=
  ∀ before a after, l = before ++ a :: after → p before a

/-- What there is to report of the entries, each with those before it. -/
def reports (report : List α → α → List β) : List α → List α → List β
  | _, [] => []
  | before, a :: after => report before a ++ reports report (before ++ [a]) after

/-- The outcome of a check that has these complaints and stops at the first. -/
def firstOf : List ε → Except ε Unit
  | [] => .ok ()
  | e :: _ => .error e

/-- What a check says, without what it computes. -/
def verdict (x : Except ε α) : Except ε Unit := x.map fun _ => ()

/-! ## Every entry in turn -/

theorem inTurn_nil : InTurn p [] := by
  intro before a after h
  simp at h

theorem inTurn_cons {a : α} :
    InTurn p (a :: l) ↔ p [] a ∧ InTurn (fun before => p (a :: before)) l := by
  constructor
  · intro h
    refine ⟨h [] a l rfl, ?_⟩
    intro before b after hl
    exact h (a :: before) b after (by rw [hl, List.cons_append])
  · rintro ⟨hfirst, hrest⟩ before b after hl
    cases before with
    | nil =>
      obtain ⟨rfl, -⟩ := List.cons.inj hl
      exact hfirst
    | cons c before =>
      obtain ⟨rfl, htail⟩ := List.cons.inj hl
      exact hrest before b after htail

theorem inTurn_and :
    InTurn (fun before a => p before a ∧ q before a) l ↔ InTurn p l ∧ InTurn q l := by
  constructor
  · intro h
    exact ⟨fun before a after hl => (h before a after hl).1,
      fun before a after hl => (h before a after hl).2⟩
  · rintro ⟨hp, hq⟩ before a after hl
    exact ⟨hp before a after hl, hq before a after hl⟩

/-- A relation that does not look at what comes before. -/
theorem inTurn_iff_forall_mem {p : α → Prop} : InTurn (fun _ => p) l ↔ ∀ a ∈ l, p a := by
  constructor
  · intro h a ha
    obtain ⟨before, after, hl⟩ := List.append_of_mem ha
    exact h before a after hl
  · intro h before a after hl
    exact h a (hl ▸ List.mem_append_right before List.mem_cons_self)

theorem inTurn_fresh_iff_nodup {key : α → γ} :
    InTurn (fun before a => key a ∉ before.map key) l ↔ (l.map key).Nodup := by
  induction l with
  | nil => exact iff_of_true inTurn_nil List.nodup_nil
  | cons a l ih =>
    have hsplit : (fun before b => key b ∉ (a :: before).map key) =
        fun before b => key b ≠ key a ∧ key b ∉ before.map key := by
      funext before b
      rw [List.map_cons, List.mem_cons, not_or]
    have hfresh : key a ∉ l.map key ↔ ∀ b ∈ l, key b ≠ key a := by simp
    rw [inTurn_cons, hsplit, inTurn_and, inTurn_iff_forall_mem, ih, List.map_cons, List.nodup_cons,
      hfresh]
    exact and_iff_right List.not_mem_nil

/-! ## Reports -/

theorem reports_eq_nil_iff {report : List α → α → List β} {seen : List α} :
    reports report seen l = [] ↔ InTurn (fun before a => report (seen ++ before) a = []) l := by
  induction l generalizing seen with
  | nil => exact iff_of_true rfl inTurn_nil
  | cons a l ih =>
    rw [reports, List.append_eq_nil_iff, inTurn_cons, ih, List.append_nil]
    simp only [List.append_assoc, List.singleton_append]

/-- The first report is the first of the entry with which the reports begin. -/
theorem exists_of_head?_reports {report : List α → α → List β} {seen : List α} {b : β}
    (h : (reports report seen l).head? = some b) :
    ∃ before a after, l = before ++ a :: after ∧
      InTurn (fun before a => report (seen ++ before) a = []) before ∧
      (report (seen ++ before) a).head? = some b := by
  induction l generalizing seen with
  | nil => simp [reports] at h
  | cons a l ih =>
    rw [reports] at h
    cases hreport : report seen a with
    | cons b' bs =>
      refine ⟨[], a, l, rfl, inTurn_nil, ?_⟩
      rw [hreport] at h
      rw [List.append_nil, hreport]
      exact h
    | nil =>
      rw [hreport, List.nil_append] at h
      obtain ⟨before, a', after, rfl, hbefore, hfirst⟩ := ih h
      simp only [List.append_assoc, List.singleton_append] at hbefore hfirst
      refine ⟨a :: before, a', after, rfl, inTurn_cons.2 ⟨?_, hbefore⟩, hfirst⟩
      rwa [List.append_nil]

/-! ## Checks that stop -/

theorem firstOf_eq_ok_iff {es : List ε} : firstOf es = .ok () ↔ es = [] := by
  cases es <;> simp [firstOf]

theorem firstOf_eq_error_iff {es : List ε} {e : ε} :
    firstOf es = .error e ↔ es.head? = some e := by
  cases es <;> simp [firstOf]

theorem firstOf_append (es es' : List ε) :
    firstOf (es ++ es') =
      match firstOf es with
      | .error e => .error e
      | .ok () => firstOf es' := by
  cases es <;> rfl

theorem firstOf_ite_append (c : Prop) [Decidable c] (e : ε) (es : List ε) :
    firstOf ((if c then [e] else []) ++ es) = if c then .error e else firstOf es := by
  split <;> rfl

theorem ite_singleton_eq_nil_iff {c : Prop} [Decidable c] {a : α} :
    (if c then [a] else []) = [] ↔ ¬c := by
  split <;> simp [*]

/-- What a check that computes something goes on with does not depend on what that is. -/
theorem verdict_bind {x : Except ε α} {k : α → Except ε β} {es es' : List ε}
    (hx : verdict x = firstOf es) (hk : ∀ a, verdict (k a) = firstOf es') :
    verdict (x >>= k) = firstOf (es ++ es') := by
  rw [firstOf_append, ← hx]
  cases x with
  | error e => rfl
  | ok a => exact hk a

@[simp] theorem verdict_error (e : ε) : verdict (.error e : Except ε α) = .error e := rfl

@[simp] theorem verdict_ok (a : α) : verdict (.ok a : Except ε α) = .ok () := rfl

@[simp] theorem verdict_map (x : Except ε α) (f : α → β) : verdict (x.map f) = verdict x := by
  cases x <;> rfl

theorem verdict_eq_error_iff {x : Except ε α} {e : ε} : verdict x = .error e ↔ x = .error e := by
  cases x <;> simp [verdict, Except.map]

end OpCatalog
