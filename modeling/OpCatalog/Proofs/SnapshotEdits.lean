import OpCatalog.Proofs.CatalogEdits
import OpCatalog.Proofs.SnapshotText

/-!
# Snapshots that are edited

A snapshot that a reading keeps is read back also after the members of its objects have been
reordered. Snapshots, types and arguments have no room for other members, and a text that adds one
is refused; members of an enumeration and value specifications do have it. A specification is read
whole before its tag is looked for, so that the tag may stand anywhere, but what is added must be
plain and not too deep.
-/
namespace OpCatalog

open Json (HasStray InItem Latitude Members)

/-! ## Plain values -/

namespace Json

theorem isPlainMembers_iff {real? : Json → Option Double} {ms : Members} :
    isPlainMembers real? ms ↔ ∀ m ∈ ms, m.2.isPlain real? := by
  induction ms with
  | nil => simp [isPlainMembers]
  | cons m ms ih => simp [isPlainMembers, ih]

theorem depthMembers_le_iff {ms : Members} {n : Nat} :
    depthMembers ms ≤ n ↔ ∀ m ∈ ms, m.2.depth ≤ n := by
  induction ms with
  | nil => simp [depthMembers]
  | cons m ms ih => simp [depthMembers, ih]

variable {r : Reading} {v v' : Json}

theorem Respelled.isPlain (h : v.Respelled r v') : v'.isPlain (doubleBy? r) := by
  cases h with
  | num _ hread' => simp [Json.isPlain, doubleBy?, hread']

theorem Respelled.depth (h : v.Respelled r v') : v'.depth = v.depth := by
  cases h with
  | num _ _ => rfl

end Json

/-! ## Value specifications -/

namespace ParamValue

/-- The fields that a specification with the tag has besides the tag. -/
def boundNames : String → List String
  | "double" | "int" | "uint" => ["default", "minimum", "maximum"]
  | "boolean" | "enum" => ["default"]
  | _ => []

/-- Whatever is plain and not too deep may be added, such as a text, a boolean or null, and a
double may be spelled in another way. -/
def latitude (r : Reading) (tag : String) : Latitude where
  names := "spec" :: boundNames tag
  adds := fun v => v.isPlain (Json.doubleBy? r) ∧ v.depth < depthLimit
  changes := fun name v v' => tag = "double" ∧ name ∈ boundNames tag ∧ v.Respelled r v'

/-- One edit of a specification. -/
inductive Edit (r : Reading) : Json → Json → Prop
  | obj {ms ms' : Members} {tag : String} :
    ("spec", .str tag) ∈ ms → (latitude r tag).EditMembers ms ms' → Edit r (.obj ms) (.obj ms')

/-- What may be edited about the members besides the tag. -/
def restLatitude (r : Reading) (tag : String) : Latitude :=
  { latitude r tag with names := boundNames tag }

variable {r : Reading} {tag name : String} {ms ms' before after : Members} {j j' : Json}

theorem ne_spec_of_mem_boundNames (h : name ∈ boundNames tag) : name ≠ "spec" := by
  rintro rfl
  unfold boundNames at h
  split at h <;> simp at h

theorem filter_spec_middle (hne : name ≠ "spec") (v : Json) :
    (before ++ (name, v) :: after).filter (·.1 == "spec") =
      (before ++ after).filter (·.1 == "spec") := by
  rw [List.filter_append, List.filter_append, List.filter_cons_of_neg (by simpa using hne)]

theorem filter_rest_middle (hne : name ≠ "spec") (v : Json) :
    (before ++ (name, v) :: after).filter (·.1 != "spec") =
      before.filter (·.1 != "spec") ++ (name, v) :: after.filter (·.1 != "spec") := by
  rw [List.filter_append, List.filter_cons_of_pos (by simpa using hne)]

/-- The tag is not edited, and the rest is edited as a record of its own. -/
theorem rest_of_edit (h : (latitude r tag).EditMembers ms ms') :
    (ms.filter (·.1 == "spec")).Perm (ms'.filter (·.1 == "spec")) ∧
      (restLatitude r tag).EditMembers (ms.filter (·.1 != "spec"))
        (ms'.filter (·.1 != "spec")) := by
  cases h with
  | reorder hperm => exact ⟨hperm.filter _, .reorder (hperm.filter _)⟩
  | @insert before after name v hname hv =>
    obtain ⟨hne, hnot⟩ : name ≠ "spec" ∧ name ∉ boundNames tag := by
      rwa [latitude, List.mem_cons, not_or] at hname
    rw [filter_spec_middle hne, filter_rest_middle hne, List.filter_append, List.filter_append]
    exact ⟨List.Perm.refl _, .insert hnot hv⟩
  | remove hdefaults => exact hdefaults.elim
  | @replace before after name v v' hchange =>
    have hne := ne_spec_of_mem_boundNames hchange.2.1
    rw [filter_spec_middle hne, filter_spec_middle hne, filter_rest_middle hne,
      filter_rest_middle hne]
    exact ⟨List.Perm.refl _, .replace hchange⟩

/-! ### Bounds -/

variable {α : Type} {read : Json → Option α} {room : Latitude}

theorem bounded?_of_edit {bounds : α × α × α}
    (hnames : room.names = ["default", "minimum", "maximum"])
    (hdefaults : ∀ n v, ¬room.defaults n v)
    (hchanges : ∀ n v v' x, room.changes n v v' → read v = some x → read v' = some x)
    (h : room.Edit j j') (hread : bounded? read j = some bounds) :
    bounded? read j' = some bounds := by
  simp only [bounded?, ← hnames, Option.bind_eq_bind, Option.bind_eq_some_iff,
    Option.some.injEq] at hread ⊢
  obtain ⟨fields, hfields, _, hdefault, _, hminimum, _, hmaximum, rfl⟩ := hread
  obtain ⟨fields', hfields', hfollows⟩ := h.exists_fields (by simp) hfields
  exact ⟨fields', hfields',
    _, hfollows.required (by simp [hnames]) (hdefaults _) (hchanges _ · · _) hdefault,
    _, hfollows.required (by simp [hnames]) (hdefaults _) (hchanges _ · · _) hminimum,
    _, hfollows.required (by simp [hnames]) (hdefaults _) (hchanges _ · · _) hmaximum, rfl⟩

theorem unbounded?_of_edit {default : α} (hnames : room.names = ["default"])
    (hdefaults : ∀ n v, ¬room.defaults n v) (hchanges : ∀ n v v', ¬room.changes n v v')
    (h : room.Edit j j') (hread : unbounded? read j = some default) :
    unbounded? read j' = some default := by
  simp only [unbounded?, ← hnames, Option.bind_eq_bind, Option.bind_eq_some_iff] at hread ⊢
  obtain ⟨fields, hfields, hdefault⟩ := hread
  obtain ⟨fields', hfields', hfollows⟩ := h.exists_fields (by simp) hfields
  exact ⟨fields', hfields', hfollows.required (by simp [hnames]) (hdefaults _)
    (fun v v' hchange => absurd hchange (hchanges _ v v')) hdefault⟩

theorem ofTagged?_of_edit {v : ParamValue} (h : (restLatitude r tag).Edit j j')
    (hread : ofTagged? (Json.doubleBy? r) tag j = some v) :
    ofTagged? (Json.doubleBy? r) tag j' = some v := by
  have hdefaults : ∀ tag n v, ¬(restLatitude r tag).defaults n v := fun _ _ _ => not_false
  unfold ofTagged? at hread ⊢
  -- One case for each tag: only the numbers of a double specification are open to changes.
  split at hread
  case h_1 =>
    obtain ⟨bounds, hbounds, rfl⟩ := Option.map_eq_some_iff.1 hread
    have hrespelled : ∀ n v v' x, (restLatitude r "double").changes n v v' →
        v.doubleBy? r = some x → v'.doubleBy? r = some x :=
      fun _ _ _ _ hchange => hchange.2.2.doubleBy?_eq_some
    have hbounds' := bounded?_of_edit rfl (hdefaults _) hrespelled h hbounds
    exact Option.map_eq_some_iff.2 ⟨bounds, hbounds', rfl⟩
  case h_2 | h_3 =>
    obtain ⟨bounds, hbounds, rfl⟩ := Option.map_eq_some_iff.1 hread
    have hfixed := bounded?_of_edit rfl (hdefaults _) (by simp [restLatitude, latitude]) h hbounds
    exact Option.map_eq_some_iff.2 ⟨bounds, hfixed, rfl⟩
  case h_4 | h_5 =>
    obtain ⟨default, hdefault, rfl⟩ := Option.map_eq_some_iff.1 hread
    have hfixed :=
      unbounded?_of_edit rfl (hdefaults _) (by simp [restLatitude, latitude]) h hdefault
    exact Option.map_eq_some_iff.2 ⟨default, hfixed, rfl⟩
  case h_6 =>
    obtain ⟨fields, hfields, rfl⟩ := Option.map_eq_some_iff.1 hread
    obtain ⟨fields', hfields', -⟩ := h.exists_fields (by simp) hfields
    exact Option.map_eq_some_iff.2 ⟨fields', hfields', rfl⟩
  case h_7 => cases hread

/-- The size of a specification depends on its members one by one. -/
theorem fits_iff {real? : Json → Option Double} :
    ((Json.obj ms).isPlain real? && decide ((Json.obj ms).depth ≤ depthLimit)) ↔
      ∀ m ∈ ms, m.2.isPlain real? ∧ m.2.depth < depthLimit := by
  have hdepth : (Json.obj ms).depth ≤ depthLimit ↔ ∀ m ∈ ms, m.2.depth < depthLimit := by
    have hsucc : 1 + Json.depthMembers ms ≤ 122 ↔ Json.depthMembers ms ≤ 121 := by omega
    rw [Json.depth, depthLimit, hsucc, Json.depthMembers_le_iff]
    exact forall₂_congr fun _ _ => Nat.lt_succ_iff.symm
  rw [Bool.and_eq_true, decide_eq_true_iff, hdepth, Json.isPlain, Json.isPlainMembers_iff]
  exact forall₂_and.symm

theorem ofJson?_of_edit {v : ParamValue} (h : Edit r j j')
    (hread : ofJson? (Json.doubleBy? r) j = some v) : ofJson? (Json.doubleBy? r) j' = some v := by
  cases h with
  | @obj ms ms' tag htag hedit =>
    obtain ⟨hspec, hrest⟩ := rest_of_edit hedit
    rw [ofJson?, Option.ite_none_right_eq_some, fits_iff] at hread ⊢
    obtain ⟨hfits, hread⟩ := hread
    refine ⟨?_, ?_⟩
    · refine hedit.forall_values (fun _ => id) ?_ hfits
      rintro n v v' ⟨-, -, hrespelled⟩ ⟨-, hdepth⟩
      exact ⟨hrespelled.isPlain, hrespelled.depth.trans_lt hdepth⟩
    · have htag' : ("spec", .str tag) ∈ ms.filter (·.1 == "spec") := List.mem_filter.2 ⟨htag, rfl⟩
      split at hread
      · next _ tag' hone =>
        rw [hone, List.mem_singleton] at htag'
        rw [hone] at hspec
        cases htag'
        rw [← List.singleton_perm.1 hspec]
        exact ofTagged?_of_edit (.obj hrest) hread
      · cases hread

end ParamValue

/-! ## What may be edited -/

def RawMember.latitude : Latitude where
  names := fieldNames
  adds := fun _ => True

def ArgumentDefinition.latitude (r : Reading) : Latitude where
  names := fieldNames
  changes := fun name v v' => name = "value" ∧ ParamValue.Edit r v v'

def TypeDefinition.latitude (r : Reading) : Latitude where
  names := fieldNames
  changes := fun name v v' =>
    name = "arguments" ∧ InItem (ArgumentDefinition.latitude r).Edit v v' ∨
      name = "values" ∧ InItem RawMember.latitude.Edit v v'

def Snapshot.latitude (r : Reading) : Latitude where
  names := fieldNames
  changes := fun name v v' => name = "types" ∧ InItem (TypeDefinition.latitude r).Edit v v'

/-! ## Records -/

variable {r : Reading} {j j' : Json}

theorem RawMember.ofJson?_of_edit {m : RawMember} (h : latitude.Edit j j')
    (hread : ofJson? j = some m) : ofJson? j' = some m := by
  simp only [ofJson?, Option.bind_eq_bind, Option.bind_eq_some_iff, Option.some.injEq] at hread ⊢
  obtain ⟨fields, hfields, _, hname, _, hnick, _, hvalue, rfl⟩ := hread
  obtain ⟨fields', hfields', hfollows⟩ := h.exists_fields (by simp) hfields
  refine ⟨fields', hfields', _, hfollows.defaulted (by decide) ?_ ?_ hname,
    _, hfollows.defaulted (by decide) ?_ ?_ hnick, _, hfollows.required (by decide) ?_ ?_ hvalue,
    rfl⟩
  all_goals simp [latitude]

theorem ArgumentDefinition.ofJson?_of_edit {a : ArgumentDefinition} (h : (latitude r).Edit j j')
    (hread : ofJson? (Json.doubleBy? r) j = some a) : ofJson? (Json.doubleBy? r) j' = some a := by
  simp only [ofJson?, Option.bind_eq_bind, Option.bind_eq_some_iff, Option.some.injEq] at hread ⊢
  obtain ⟨fields, hfields, _, hname, _, htype, _, hflags, _, hpriority, _, hvalue, rfl⟩ := hread
  obtain ⟨fields', hfields', hfollows⟩ := h.exists_fields (by simp [latitude]) hfields
  have hspec : ∀ {v v' : Json} {value : ParamValue}, (latitude r).changes "value" v v' →
      ParamValue.ofJson? (Json.doubleBy? r) v = some value →
        ParamValue.ofJson? (Json.doubleBy? r) v' = some value :=
    fun hchange => ParamValue.ofJson?_of_edit hchange.2
  refine ⟨fields', hfields', _, hfollows.required ?_ ?_ ?_ hname,
    _, hfollows.required ?_ ?_ ?_ htype, _, hfollows.defaulted ?_ ?_ ?_ hflags,
    _, hfollows.defaulted ?_ ?_ ?_ hpriority,
    _, hfollows.defaulted ?_ ?_ (fun _ _ => hspec) hvalue, rfl⟩
  all_goals simp [latitude, fieldNames]

theorem TypeDefinition.ofJson?_of_edit {d : TypeDefinition} (h : (latitude r).Edit j j')
    (hread : ofJson? (Json.doubleBy? r) j = some d) : ofJson? (Json.doubleBy? r) j' = some d := by
  simp only [ofJson?, Option.bind_eq_bind, Option.bind_eq_some_iff, Option.some.injEq] at hread ⊢
  obtain ⟨fields, hfields, _, hname, _, hparent, _, hnickname, _, hfundamental, _, habstract, _,
    hbroken, _, hdescription, _, harguments, _, hmembers, rfl⟩ := hread
  obtain ⟨fields', hfields', hfollows⟩ := h.exists_fields (by simp [latitude]) hfields
  have harguments' : ∀ {v v' : Json} {args : List ArgumentDefinition},
      (latitude r).changes "arguments" v v' →
        v.list? (ArgumentDefinition.ofJson? (Json.doubleBy? r)) = some args →
          v'.list? (ArgumentDefinition.ofJson? (Json.doubleBy? r)) = some args := by
    intro v v' args hchange
    have hitem : InItem (ArgumentDefinition.latitude r).Edit v v' := by
      simpa [latitude] using hchange
    exact hitem.list? fun _ _ _ => ArgumentDefinition.ofJson?_of_edit
  have hmembers' : ∀ {v v' : Json} {ms : List RawMember}, (latitude r).changes "values" v v' →
      v.list? RawMember.ofJson? = some ms → v'.list? RawMember.ofJson? = some ms := by
    intro v v' ms hchange
    have hitem : InItem RawMember.latitude.Edit v v' := by simpa [latitude] using hchange
    exact hitem.list? fun _ _ _ => RawMember.ofJson?_of_edit
  refine ⟨fields', hfields', _, hfollows.required ?_ ?_ ?_ hname,
    _, hfollows.defaulted ?_ ?_ ?_ hparent,
    _, hfollows.defaulted ?_ ?_ ?_ hnickname,
    _, hfollows.defaulted ?_ ?_ ?_ hfundamental,
    _, hfollows.defaulted ?_ ?_ ?_ habstract,
    _, hfollows.defaulted ?_ ?_ ?_ hbroken,
    _, hfollows.defaulted ?_ ?_ ?_ hdescription,
    _, hfollows.defaulted ?_ ?_ (fun _ _ => harguments') harguments,
    _, hfollows.defaulted ?_ ?_ (fun _ _ => hmembers') hmembers, rfl⟩
  all_goals simp [latitude, fieldNames]

namespace Snapshot

theorem ofJsonBy?_of_edit {s : Snapshot} (h : (latitude r).Edit j j')
    (hread : ofJsonBy? r j = some s) : ofJsonBy? r j' = some s := by
  simp only [ofJsonBy?, Option.bind_eq_bind, Option.bind_eq_some_iff, Option.some.injEq] at hread ⊢
  obtain ⟨fields, hfields, _, htypes, rfl⟩ := hread
  obtain ⟨fields', hfields', hfollows⟩ := h.exists_fields (by simp [latitude]) hfields
  have htypes' : ∀ {v v' : Json} {ds : List TypeDefinition}, (latitude r).changes "types" v v' →
      v.list? (TypeDefinition.ofJson? (Json.doubleBy? r)) = some ds →
        v'.list? (TypeDefinition.ofJson? (Json.doubleBy? r)) = some ds :=
    fun hchange => hchange.2.list? fun _ _ _ => TypeDefinition.ofJson?_of_edit
  refine ⟨fields', hfields', _, hfollows.defaulted ?_ ?_ (fun _ _ => htypes') htypes, rfl⟩
  all_goals simp [latitude, fieldNames]

/-- Any number of edits of the value of a snapshot. -/
theorem ofJsonBy?_of_edits {s : Snapshot} (hs : s.KeptBy r)
    (h : Relation.ReflTransGen (latitude r).Edit s.toJson j) : ofJsonBy? r j = some s := by
  induction h with
  | refl => exact ofJsonBy?_toJson hs
  | tail _ hedit ih => exact ofJsonBy?_of_edit hedit ih

end Snapshot

/-! ## What is refused -/

/-- The type, or one of its arguments, has a member that is no field. -/
def TypeDefinition.Overloaded (j : Json) : Prop :=
  j.HasStray fieldNames ∨ j.AnyItem "arguments" (HasStray ArgumentDefinition.fieldNames)

/-- The snapshot, a type or an argument has a member that is no field. -/
def Snapshot.Overloaded (j : Json) : Prop :=
  j.HasStray fieldNames ∨ j.AnyItem "types" TypeDefinition.Overloaded

theorem ArgumentDefinition.ofJson?_of_hasStray (h : j.HasStray fieldNames) :
    ofJson? (Json.doubleBy? r) j = none := by
  rw [ofJson?, Json.fields?_of_hasStray h]
  rfl

theorem TypeDefinition.ofJson?_of_overloaded (h : Overloaded j) :
    ofJson? (Json.doubleBy? r) j = none := by
  rw [Option.eq_none_iff_forall_ne_some]
  intro d hread
  simp only [ofJson?, Option.bind_eq_bind, Option.bind_eq_some_iff] at hread
  obtain ⟨fields, hfields, _, -, _, -, _, -, _, -, _, -, _, -, _, -, _, harguments, -⟩ := hread
  rcases h with hstray | hargument
  · rw [Json.fields?_of_hasStray hstray] at hfields
    cases hfields
  · have hnone := hargument.defaulted_eq_none
      (fun _ => ArgumentDefinition.ofJson?_of_hasStray (r := r)) (by decide) hfields
    rw [hnone] at harguments
    cases harguments

theorem Snapshot.ofJsonBy?_of_overloaded (h : Overloaded j) : ofJsonBy? r j = none := by
  rw [Option.eq_none_iff_forall_ne_some]
  intro s hread
  simp only [ofJsonBy?, Option.bind_eq_bind, Option.bind_eq_some_iff] at hread
  obtain ⟨fields, hfields, _, htypes, -⟩ := hread
  rcases h with hstray | htype
  · rw [Json.fields?_of_hasStray hstray] at hfields
    cases hfields
  · have hnone := htype.defaulted_eq_none
      (fun _ => TypeDefinition.ofJson?_of_overloaded (r := r)) (by decide) hfields
    rw [hnone] at htypes
    cases htypes

/-! ## Texts -/

/-- A text whose value is that of a catalogue or of a snapshot, but for edits, is read as that
catalogue or snapshot, whatever the edits, if the reading keeps each of its doubles. In catalogues
they reorder the members of any object, add others and leave out defaults; in snapshots they reorder
members and add some to members of enumerations and to value specifications. A text in which the
snapshot, a type or an argument has a member that is no field is not read at all. -/
theorem parse?_of_edits (r : Reading) :
    (∀ (c : Catalog) (text : String) (j : Json), c.KeptBy r → Json.parse? text = some j →
      Relation.ReflTransGen (Catalog.latitude r).Edit c.toJson j →
        Catalog.parseBy? r text = some c) ∧
    (∀ (s : Snapshot) (text : String) (j : Json), s.KeptBy r → Json.parse? text = some j →
      Relation.ReflTransGen (Snapshot.latitude r).Edit s.toJson j →
        Snapshot.parseBy? r text = some s) ∧
    ∀ (text : String) (j : Json), Json.parse? text = some j → Snapshot.Overloaded j →
      Snapshot.parseBy? r text = none := by
  refine ⟨?_, ?_, ?_⟩
  · intro c text j hc htext hedits
    rw [Catalog.parseBy?, htext, Option.bind_some]
    exact Catalog.ofJsonBy?_of_edits hc hedits
  · intro s text j hs htext hedits
    rw [Snapshot.parseBy?, htext, Option.bind_some]
    exact Snapshot.ofJsonBy?_of_edits hs hedits
  · intro text j htext hoverloaded
    rw [Snapshot.parseBy?, htext, Option.bind_some]
    exact Snapshot.ofJsonBy?_of_overloaded hoverloaded

/-- One operation with one argument of at most the given number, and no enumerations. -/
def inverting (maximum : Double) : Catalog where
  operations :=
    [{ name := "invert"
       category := "arithmetic"
       arguments :=
        [{ name := "scale", kind := .double, flags := ⟨1⟩, priority := 0,
           bounds := ⟨.one, .zero, maximum⟩ }] }]

/-- The operation of `inverting .one` with its description first, and without the lower bound of
its argument. -/
def described : Json :=
  .obj
    [("description", .str ""), ("name", .str "invert"), ("category", .str "arithmetic"),
      ("arguments", .arr [.obj
        [("name", .str "scale"), ("kind", .str "double"), ("flags", .ofInt 1),
          ("priority", .ofInt 0), ("default", .ofDouble .one), ("max", .ofDouble .one)]])]

/-- The value of `inverting .one` without enumerations, and with a member that holds a string which
is no text and a number beyond the doubles. -/
def inverted : Json :=
  .obj
    [("tool", .arr [.garbled, .num ⟨false, 1, [], some 999⟩]), ("operations", .arr [described])]

theorem edits_inverted :
    Relation.ReflTransGen (Catalog.latitude .quick).Edit (inverting .one).toJson inverted := by
  let start := [("name", Json.str "scale"), ("kind", .str "double"), ("flags", .ofInt 1),
    ("priority", .ofInt 0), ("default", .ofDouble .one)]
  let whole := start ++ ("min", .ofDouble .zero) :: [("max", .ofDouble .one)]
  let rest := start ++ [("max", .ofDouble .one)]
  have hzero : (Json.ofDouble .zero).doubleBy? .quick = some .zero := by decide +kernel
  have hargument : (Argument.latitude .quick).Edit (.obj whole) (.obj rest) :=
    .obj (.remove (Or.inl ⟨by decide, hzero⟩))
  let members (argument : Json) := [("name", Json.str "invert"), ("description", .str ""),
    ("category", .str "arithmetic")] ++ ("arguments", .arr ([] ++ argument :: [])) :: []
  have hshort : (Operation.latitude .quick).Edit (.obj (members (.obj whole)))
      (.obj (members (.obj rest))) := .obj (.replace ⟨rfl, .mk hargument⟩)
  have horder : (Operation.latitude .quick).Edit (.obj (members (.obj rest))) described :=
    .obj (.reorder (.swap _ _ _))
  let operations (op : Json) := ([] ++ ("operations", Json.arr ([] ++ op :: [])) ::
    [("enums", .arr [])] : Members)
  have hoperation : ∀ {op op' : Json}, (Operation.latitude .quick).Edit op op' →
      (Catalog.latitude .quick).Edit (.obj (operations op)) (.obj (operations op')) :=
    fun hedit => .obj (.replace (Or.inl ⟨rfl, .mk hedit⟩))
  have hremove : (Catalog.latitude .quick).Edit
      (.obj ([("operations", .arr [described])] ++ ("enums", .arr []) :: []))
      (.obj ([("operations", .arr [described])] ++ [])) :=
    .obj (.remove ⟨by decide, rfl⟩)
  have hinsert : (Catalog.latitude .quick).Edit (.obj ([] ++ [("operations", .arr [described])]))
      inverted := .obj (.insert (by decide) trivial)
  exact (((Relation.ReflTransGen.single (hoperation hshort)).tail (hoperation horder)).tail
    hremove).tail hinsert

/-- A type with one argument, which is specified to be true. -/
def switching : Snapshot where
  types :=
    [{ name := "VipsSwitch"
       arguments := [{ name := "on", typeName := "gboolean", value := .boolean true }] }]

/-- The value of `switching` with this specification, and with these members of the argument
besides its fields. -/
def switched (spec : Json) (others : Members) : Json :=
  .obj ([] ++ ("types", .arr ([] ++
    .obj ([("name", .str "VipsSwitch"), ("abstract", .bool false), ("broken", .bool false)] ++
      ("arguments", .arr ([] ++
        .obj ([("name", .str "on"), ("type", .str "gboolean"), ("flags", .arr []),
          ("priority", .ofInt 0)] ++ ("value", spec) :: others) :: [])) :: []) :: [])) :: [])

/-- A specification with a member before its tag. -/
def noted : Json := .obj [("note", .null), ("spec", .str "boolean"), ("default", .bool true)]

theorem edits_switched :
    Relation.ReflTransGen (Snapshot.latitude .quick).Edit switching.toJson (switched noted []) := by
  let plain := [("spec", .str "boolean"), ("default", Json.bool true)]
  have hinsert : (ParamValue.latitude .quick "boolean").EditMembers ([] ++ plain)
      ([] ++ ("note", .null) :: plain) := .insert (by decide) ⟨rfl, by decide⟩
  have hspec : ParamValue.Edit .quick (.obj plain) noted := .obj List.mem_cons_self hinsert
  have hedit : (Snapshot.latitude .quick).Edit (switched (.obj plain) []) (switched noted []) :=
    .obj (.replace ⟨rfl, .mk (.obj (.replace (Or.inl ⟨rfl, .mk (.obj (.replace ⟨rfl, hspec⟩))⟩)))⟩)
  exact Relation.ReflTransGen.single hedit

theorem overloaded_switched : Snapshot.Overloaded (switched noted [("note", .null)]) := by
  refine Or.inr ⟨_, List.mem_cons_self, _, List.mem_cons_self, Or.inr ?_⟩
  refine ⟨_, List.mem_append_right _ List.mem_cons_self, _, List.mem_cons_self, ("note", .null), ?_,
    by decide⟩
  simp

/-- The same member next to the specification is refused. -/
theorem parse?_of_edits_noted :
    (inverting .one).KeptBy .quick ∧ switching.KeptBy .quick ∧
      Catalog.parse? inverted.compact = some (inverting .one) ∧
      Snapshot.parse? (switched noted []).pretty = some switching ∧
      Snapshot.parse? (switched noted [("note", .null)]).pretty = none := by
  have hinverting : (inverting .one).KeptBy .quick := by decide +kernel
  have hswitching : switching.KeptBy .quick := by decide
  obtain ⟨hcatalog, hsnapshot, hrefused⟩ := parse?_of_edits .quick
  have hpretty := Json.parse?_render Json.Layout.blank_pretty
  refine ⟨hinverting, hswitching, ?_, ?_, ?_⟩
  · exact hcatalog (inverting .one) _ inverted hinverting
      (Json.parse?_render Json.Layout.blank_compact _) edits_inverted
  · exact hsnapshot switching _ (switched noted []) hswitching (hpretty _) edits_switched
  · exact hrefused _ _ (hpretty _) overloaded_switched

/-- Even without an edit, a catalogue with finite bounds is read as another one where a bound, here
`51.248178375505404`, is not read back from its numeral. -/
theorem parse?_inverting_misread :
    (inverting ⟨0x40499fc44f1b2f60⟩).hasFiniteBounds ∧
      Json.parse? ((inverting ⟨0x40499fc44f1b2f60⟩).render .compact) =
        some (inverting ⟨0x40499fc44f1b2f60⟩).toJson ∧
      Catalog.parse? ((inverting ⟨0x40499fc44f1b2f60⟩).render .compact) =
        some (inverting ⟨0x40499fc44f1b2f61⟩) ∧
      inverting ⟨0x40499fc44f1b2f61⟩ ≠ inverting ⟨0x40499fc44f1b2f60⟩ := by
  refine ⟨by decide, Json.parse?_render Json.Layout.blank_compact _, ?_, by decide⟩
  rw [Catalog.parse?, Catalog.parseBy?_render Json.Layout.blank_compact]
  decide +kernel

end OpCatalog
