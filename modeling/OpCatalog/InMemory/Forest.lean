import OpCatalog.InMemory.Definition
import OpCatalog.Registry.Traits

/-!
# Forests of types

The types registered so far. A type is known by its handle, its place in the order
of registration counted from one, and keeps the handles of its parent and of its
children. A table beside the types says which handle a name stands for. Parents and
argument types are registered first, so a parent's handle is smaller than its
child's and every walk along parents or children ends; the number of types bounds
the steps of such a walk.
-/
namespace OpCatalog

structure TypeEntry where
  name : String
  parent : Option TypeHandle
  /-- In the order of registration. -/
  children : List TypeHandle := []
  nickname : Option String := none
  fundamental : Fundamental
  isAbstract : Bool
  isBroken : Bool := false
  description : Option String := none
  parameters : List ParamSpec := []
  members : List RawMember := []
  deriving DecidableEq, Repr, Inhabited

structure Forest where
  entries : List TypeEntry := []
  /-- What each name stands for, the latest first. -/
  byName : List (String × TypeHandle) := []
  deriving DecidableEq, Repr, Inhabited

/-- Why a definition does not fit the types registered so far. -/
inductive Refusal where
  | emptyName
  | duplicateName (name : String)
  | unknownParent (name parent : String)
  | unknownArgumentType (argument name typeName : String)
  deriving DecidableEq, Repr

namespace Refusal

def message : Refusal → String
  | .emptyName => "Invalid registry: type name must not be empty"
  | .duplicateName name => "Invalid registry: type '" ++ name ++ "' is already registered"
  | .unknownParent name parent =>
    "Invalid registry: type '" ++ name ++ "' has unknown parent '" ++ parent ++ "'"
  | .unknownArgumentType argument name typeName =>
    "Invalid registry: argument '" ++ argument ++ "' of '" ++ name ++ "' has unknown type '" ++
      typeName ++ "'"

end Refusal

namespace Forest

def empty : Forest := {}

def size (f : Forest) : Nat := f.entries.length

/-- The entry of a handle; handles count from one. -/
def entry? (f : Forest) : TypeHandle → Option TypeEntry
  | ⟨0⟩ => none
  | ⟨n + 1⟩ => f.entries[n]?

/-- What a name stands for; the entries are not searched. -/
def lookup? (f : Forest) (name : String) : Option TypeHandle := f.byName.lookup name

def parent? (f : Forest) (t : TypeHandle) : Option TypeHandle := (f.entry? t).bind (·.parent)

/-! ## Registration -/

/-- Records `child` with the type `parent`. -/
def addChild (f : Forest) (child : TypeHandle) : TypeHandle → Forest
  | ⟨0⟩ => f
  | ⟨n + 1⟩ =>
    { f with entries := f.entries.modify n fun e => { e with children := e.children ++ [child] } }

/-- Appends an entry, which becomes the last child of its parent, and has its name stand for
it. -/
def insert (f : Forest) (e : TypeEntry) : TypeHandle × Forest :=
  let t : TypeHandle := ⟨f.size + 1⟩
  let linked := match e.parent with
    | none => f
    | some parent => f.addChild t parent
  (t, ⟨linked.entries ++ [e], (e.name, t) :: linked.byName⟩)

@[simp] theorem size_addChild (f : Forest) (child parent : TypeHandle) :
    (f.addChild child parent).size = f.size := by
  rcases parent with ⟨_ | n⟩
  · rfl
  · simp [addChild, size]

@[simp] theorem size_insert (f : Forest) (e : TypeEntry) : (f.insert e).2.size = f.size + 1 := by
  cases h : e.parent with
  | none => simp [insert, h, size]
  | some parent => simpa [insert, h, size] using f.size_addChild ⟨f.size + 1⟩ parent

/-- The parameter that an argument of the type `owner` declares. -/
def parameter (f : Forest) (owner : String) (a : ArgumentDefinition) : Except Refusal ParamSpec :=
  match f.lookup? a.typeName with
  | none => .error (.unknownArgumentType a.name owner a.typeName)
  | some t => .ok ⟨a.name, t, .ofNames a.flags, a.priority, a.value⟩

/-- The parameters of a list of arguments, up to the first refusal. -/
def parameters (f : Forest) (owner : String) :
    List ArgumentDefinition → Except Refusal (List ParamSpec)
  | [] => .ok []
  | a :: as =>
    match f.parameter owner a with
    | .error e => .error e
    | .ok p => (f.parameters owner as).map (p :: ·)

/-- The handle of the parent, if the definition names one. -/
def parentOf (f : Forest) (d : TypeDefinition) : Except Refusal (Option TypeHandle) :=
  match d.parent with
  | none => .ok none
  | some name =>
    match f.lookup? name with
    | none => .error (.unknownParent d.name name)
    | some t => .ok (some t)

/-- The fundamental type given, else that of the parent, else `other`. -/
def fundamentalOf (f : Forest) (d : TypeDefinition) (parent : Option TypeHandle) : Fundamental :=
  d.fundamental.getD (((parent.bind f.entry?).map (·.fundamental)).getD .other)

/-- Checks the name, then the parent, then the types of the arguments. -/
def entryOf (f : Forest) (d : TypeDefinition) : Except Refusal TypeEntry :=
  if d.name.isEmpty then .error .emptyName
  else if (f.lookup? d.name).isSome then .error (.duplicateName d.name)
  else do
    let parent ← f.parentOf d
    let parameters ← f.parameters d.name d.arguments
    .ok
      { name := d.name
        parent := parent
        nickname := d.nickname
        fundamental := f.fundamentalOf d parent
        isAbstract := d.isAbstract
        isBroken := d.isBroken
        description := d.description
        parameters := parameters
        members := d.members }

def register (f : Forest) (d : TypeDefinition) : Except Refusal (TypeHandle × Forest) :=
  (f.entryOf d).map f.insert

/-- Registers definitions in order up to the first refusal, and keeps those before it. -/
def registerAll (f : Forest) : List TypeDefinition → Except Refusal Unit × Forest
  | [] => (.ok (), f)
  | d :: ds =>
    match f.register d with
    | .error e => (.error e, f)
    | .ok (_, f) => f.registerAll ds

/-! ## The standard types -/

/-- Name, parent, fundamental type, and whether it is abstract. -/
def standardTypes : List (String × Option String × Fundamental × Bool) :=
  [("GObject", none, .object, false), ("VipsObject", some "GObject", .object, true),
    ("VipsOperation", some "VipsObject", .object, true),
    ("VipsImage", some "VipsObject", .object, false),
    ("VipsInterpolate", some "VipsObject", .object, true),
    ("VipsConnection", some "VipsObject", .object, true),
    ("VipsSource", some "VipsConnection", .object, false),
    ("VipsTarget", some "VipsConnection", .object, false), ("GBoxed", none, .boxed, true),
    ("VipsArea", some "GBoxed", .boxed, false), ("VipsBlob", some "GBoxed", .boxed, false),
    ("VipsArrayDouble", some "GBoxed", .boxed, false),
    ("VipsArrayInt", some "GBoxed", .boxed, false),
    ("VipsArrayImage", some "GBoxed", .boxed, false),
    ("GEnum", none, .enum, true), ("GFlags", none, .flags, true), ("gdouble", none, .double, false),
    ("gfloat", none, .float, false), ("gint", none, .int, false), ("guint", none, .uint, false),
    ("glong", none, .long, false), ("gulong", none, .ulong, false), ("gint64", none, .int64, false),
    ("guint64", none, .uint64, false), ("gboolean", none, .boolean, false),
    ("gchararray", none, .string, false), ("gpointer", none, .pointer, false)]

/-- The objects, boxed types, enumerations and scalars that definitions build on. -/
def standard : Forest :=
  standardTypes.foldl
    (fun f (name, parent, fundamental, isAbstract) =>
      (f.insert
        { name := name
          parent := parent.bind f.lookup?
          fundamental := fundamental
          isAbstract := isAbstract }).2)
    empty

/-! ## Walks -/

/-- The entry of a type followed by those of its ancestors, nearest first. -/
def lineageFrom (f : Forest) : Nat → Option TypeHandle → List TypeEntry
  | 0, _ => []
  | _, none => []
  | fuel + 1, some t =>
    match f.entry? t with
    | none => []
    | some e => e :: f.lineageFrom fuel e.parent

def lineage (f : Forest) (t : TypeHandle) : List TypeEntry := f.lineageFrom f.size (some t)

def isAFrom (f : Forest) (ancestor : TypeHandle) : Nat → TypeHandle → Bool
  | 0, t => t == ancestor
  | fuel + 1, t =>
    t == ancestor ||
      match f.parent? t with
      | none => false
      | some p => f.isAFrom ancestor fuel p

/-- The type is the ancestor or derives from it; also a handle that is not
registered is itself. -/
def isA (f : Forest) (t ancestor : TypeHandle) : Bool := f.isAFrom ancestor f.size t

/-- The types left on the stack and everything below them: each is visited before
its children, which are put on the stack before whatever else waits there. -/
def visit (f : Forest) : Nat → List TypeHandle → List TypeHandle
  | 0, _ => []
  | _, [] => []
  | fuel + 1, t :: stack =>
    t :: f.visit fuel (((f.entry? t).map (·.children)).getD [] ++ stack)

/-- A type and everything derived from it, parents before children and siblings in
the order of registration. -/
def subtypes (f : Forest) (base : TypeHandle) : List TypeHandle :=
  if (f.entry? base).isSome then f.visit f.size [base] else []

/-! ## Queries -/

/-- A type has the capabilities of the well-known types that it derives from. -/
def has (f : Forest) (t : TypeHandle) (c : Capability) : Bool :=
  (f.lookup? c.typeName).any (f.isA t)

def traits? (f : Forest) (t : TypeHandle) : Option Traits :=
  (f.entry? t).map fun e => { has := f.has t, fundamental := e.fundamental }

/-- Enumerations list their members unless they are abstract. -/
def members? (f : Forest) (t : TypeHandle) : Option (List RawMember) := do
  let e ← f.entry? t
  if e.fundamental == .enum && !e.isAbstract then some e.members else none

/-- Concrete objects that are not broken can be instantiated. -/
def isInstantiable (f : Forest) (t : TypeHandle) : Bool :=
  (f.entry? t).any fun e => !e.isAbstract && !e.isBroken && e.fundamental == .object

/-- The parameters of a type, those of its ancestors first, from the root down. -/
def parametersOf (f : Forest) (t : TypeHandle) : List ParamSpec :=
  (f.lineage t).reverse.flatMap (·.parameters)

end Forest

end OpCatalog
