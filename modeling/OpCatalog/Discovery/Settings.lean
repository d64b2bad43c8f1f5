import OpCatalog.Text.File

/-!
# Settings and failures of a discovery

What is discovered, where it stops, and how it is shown. Every field has a
default, under which nothing is limited, ordered or overridden. Only what ends a
whole discovery is a failure: types that cannot be instantiated, parameters that
fit no kind and names of no enumeration are recorded or passed over.
-/
namespace OpCatalog

inductive OperationOrder where
  /-- As the registry visits the types. -/
  | registration
  | name
  deriving DecidableEq, Repr, Inhabited

namespace OperationOrder

def all : List OperationOrder := [.registration, .name]

def label : OperationOrder → String
  | .registration => "registration"
  | .name => "name"

def ofLabel? (s : String) : Option OperationOrder := all.find? (·.label == s)

@[simp] theorem ofLabel?_label (o : OperationOrder) : ofLabel? o.label = some o := by
  cases o <;> decide

end OperationOrder

inductive ArgumentOrder where
  /-- As the registry lists the parameters. -/
  | discovery
  | priority
  deriving DecidableEq, Repr, Inhabited

namespace ArgumentOrder

def all : List ArgumentOrder := [.discovery, .priority]

def label : ArgumentOrder → String
  | .discovery => "discovery"
  | .priority => "priority"

def ofLabel? (s : String) : Option ArgumentOrder := all.find? (·.label == s)

@[simp] theorem ofLabel?_label (o : ArgumentOrder) : ofLabel? o.label = some o := by
  cases o <;> decide

end ArgumentOrder

/-- What a limit bounds the number of. -/
inductive Resource where
  | operations
  | arguments
  | enumMembers
  deriving DecidableEq, Repr, Inhabited

namespace Resource

def all : List Resource := [.operations, .arguments, .enumMembers]

def text : Resource → String
  | .operations => "operations"
  | .arguments => "arguments"
  | .enumMembers => "enum values"

/-- The name of the field that holds the limit. -/
def limitName : Resource → String
  | .operations => "max_operations"
  | .arguments => "max_arguments"
  | .enumMembers => "max_enum_values"

end Resource

structure Limits where
  operations : Option Nat := none
  arguments : Option Nat := none
  enumMembers : Option Nat := none
  deriving DecidableEq, Repr, Inhabited

namespace Limits

def fieldNames : List String := Resource.all.map Resource.limitName

def get (limits : Limits) : Resource → Option Nat
  | .operations => limits.operations
  | .arguments => limits.arguments
  | .enumMembers => limits.enumMembers

end Limits

structure Settings where
  /-- The type whose subtypes are discovered as operations. -/
  baseType : String := "VipsOperation"
  /-- Ancestors at which the search for a category stops. -/
  rootTypes : List String := ["VipsOperation", "VipsObject"]
  /-- The nick that marks the end of an enumeration. -/
  sentinel : String := "last"
  limits : Limits := {}
  operationOrder : OperationOrder := .registration
  argumentOrder : ArgumentOrder := .discovery
  /-- Categories by operation name, in ascending order of the names. -/
  overrides : List (String × String) := []
  deriving DecidableEq, Repr, Inhabited

namespace Settings

def fieldNames : List String :=
  ["base_type", "root_types", "sentinel_nick", "limits", "ordering", "categories"]

inductive Fault where
  | emptyBaseType
  | emptySentinel
  | emptyRoot (root : String)
  | zeroLimit (resource : Resource)
  | emptyOverride (operation : String)
  deriving DecidableEq, Repr

namespace Fault

def message : Fault → String
  | .emptyBaseType => "base_type cannot be empty"
  | .emptySentinel => "sentinel_nick cannot be empty"
  | .emptyRoot root => "root_types contains an empty name: " ++ Text.visible root
  | .zeroLimit resource => "limits." ++ resource.limitName ++ " must be at least 1"
  | .emptyOverride operation => "category override for " ++ operation ++ " cannot be empty"

end Fault

/-- The first fault in the order of the fields. White space alone counts as empty,
except for the sentinel. -/
def fault? (s : Settings) : Option Fault :=
  if Text.isBlank s.baseType then some .emptyBaseType
  else if s.sentinel.isEmpty then some .emptySentinel
  else match s.rootTypes.find? Text.isBlank with
    | some root => some (.emptyRoot root)
    | none =>
      match Resource.all.find? (s.limits.get · == some 0) with
      | some resource => some (.zeroLimit resource)
      | none => (s.overrides.find? (Text.isBlank ·.2)).map (.emptyOverride ·.1)

end Settings

inductive Failure where
  | invalidSettings (fault : Settings.Fault)
  | runtimeStart (reason : String)
  | unknownBaseType (name : String)
  /-- There are more of the resource in the context than the limit allows. -/
  | limitExceeded (resource : Resource) (context : String) (limit : Nat)
  deriving DecidableEq, Repr

namespace Failure

def message : Failure → String
  | .invalidSettings fault => "Invalid config: " ++ fault.message
  | .runtimeStart reason => "Runtime initialization failed: " ++ reason
  | .unknownBaseType name => "Unknown base type: " ++ name
  | .limitExceeded resource context limit =>
    "Too many " ++ resource.text ++ " in " ++ context ++ ": limit is " ++ limit.repr

end Failure

end OpCatalog
