import OpCatalog.Registry.Basic

/-!
# Categories

An operation belongs to the category of its nearest ancestor that the table
knows, unless a root comes first. The walk starts at the parent, so neither the
type itself nor a root is ever looked up, and it ends where it would repeat.
-/
namespace OpCatalog

def ancestorCategories : List (String × String) :=
  [("VipsArithmetic", "arithmetic"), ("VipsBinary", "arithmetic"), ("VipsUnary", "arithmetic"),
    ("VipsStatistic", "arithmetic"), ("VipsColour", "colour"), ("VipsColourCode", "colour"),
    ("VipsColourDifference", "colour"), ("VipsColourSpace", "colour"),
    ("VipsColourTransform", "colour"), ("VipsConversion", "conversion"),
    ("VipsConvolution", "convolution"), ("VipsCreate", "create"), ("VipsDraw", "draw"),
    ("VipsForeign", "foreign"), ("VipsForeignLoad", "foreign"), ("VipsForeignSave", "foreign"),
    ("VipsFreqfilt", "freqfilt"), ("VipsHistogram", "histogram"), ("VipsMorphology", "morphology"),
    ("VipsResample", "resample")]

def categoryOfAncestor? (typeName : String) : Option String := ancestorCategories.lookup typeName

namespace Registry

variable {σ : Type}

/-- The handles of the named roots; unknown names are passed over. -/
def roots (reg : Registry σ) (names : List String) : List TypeHandle := names.filterMap reg.lookup?

def tabledCategory? (reg : Registry σ) (t : TypeHandle) : Option String :=
  (reg.typeName? t).bind categoryOfAncestor?

/-- The category found from `next` upward, after the ancestors in `visited`. -/
def categoryFrom? (reg : Registry σ) (roots : List TypeHandle) :
    Nat → List TypeHandle → Option TypeHandle → Option String
  | 0, _, _ => none
  | _, _, none => none
  | fuel + 1, visited, some t =>
    if roots.contains t || visited.contains t then none
    else match reg.tabledCategory? t with
      | some category => some category
      | none => reg.categoryFrom? roots fuel (t :: visited) (reg.parent? t)

/-- The category of the nearest tabled ancestor below the roots. No walk without
repetition is longer than one step past the types that have a parent. -/
def ancestorCategory? (reg : Registry σ) (rootNames : List String) (t : TypeHandle) :
    Option String :=
  reg.categoryFrom? (reg.roots rootNames) (reg.size + 1) [] (reg.parent? t)

/-- An operation without a tabled ancestor is a category of its own. -/
def category (reg : Registry σ) (rootNames : List String) (t : TypeHandle) (name : String) :
    String :=
  (reg.ancestorCategory? rootNames t).getD name

end Registry

end OpCatalog
