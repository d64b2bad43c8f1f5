import OpCatalog.Catalog.Flags
import OpCatalog.Catalog.Kind
import OpCatalog.Double.Basic
import OpCatalog.Text.Names

/-!
# Catalogues

A catalogue lists the operations of a library and the enumerated types that their
arguments mention. Names are looked up from the front: of two entries of one name
the first is found.
-/
namespace OpCatalog

/-- Default and limits of a numeric argument; all zero for the other kinds. -/
structure Bounds where
  default : Double := .zero
  min : Double := .zero
  max : Double := .zero
  deriving DecidableEq, Repr, Inhabited

namespace Bounds

def zero : Bounds := {}

/-- A negative zero counts as zero, NaN does not. -/
def isZero (b : Bounds) : Bool := b.default.isZero && b.min.isZero && b.max.isZero

def isFinite (b : Bounds) : Bool := b.default.isFinite && b.min.isFinite && b.max.isFinite

end Bounds

structure Argument where
  name : String
  kind : Kind
  flags : ArgumentFlags
  /-- The place that the library asks for among the arguments. -/
  priority : Int32
  bounds : Bounds := {}
  /-- The enumerated type that an argument of kind `enum` or `flags` draws from. -/
  enumType : Option String := none
  deriving DecidableEq, Repr, Inhabited

namespace Argument

def isInput (a : Argument) : Bool := a.flags.contains .input
def isOutput (a : Argument) : Bool := a.flags.contains .output
def isRequired (a : Argument) : Bool := a.flags.contains .required
def isModified (a : Argument) : Bool := a.flags.contains .modify

def typeLabel (a : Argument) : String := a.enumType.getD a.kind.name

/-- The enumerated type has a name, and a name that is not empty. -/
def hasEnumName (a : Argument) : Bool := a.enumType.any (!·.isEmpty)

end Argument

structure Operation where
  name : String
  description : String := ""
  category : String
  arguments : List Argument := []
  deriving DecidableEq, Repr, Inhabited

namespace Operation

def argument? (op : Operation) (name : String) : Option Argument :=
  op.arguments.find? (·.name == name)

def requiredInputs (op : Operation) : List Argument :=
  op.arguments.filter fun a => a.isInput && a.isRequired

def optionalInputs (op : Operation) : List Argument :=
  op.arguments.filter fun a => a.isInput && !a.isRequired

def outputs (op : Operation) : List Argument := op.arguments.filter (·.isOutput)

end Operation

structure EnumMember where
  name : String
  nick : String
  value : Int32
  deriving DecidableEq, Repr, Inhabited

/-- An enumerated type; one without members did not resolve to an enumeration. -/
structure EnumType where
  name : String
  members : List EnumMember := []
  deriving DecidableEq, Repr, Inhabited

namespace EnumType

def isResolved (e : EnumType) : Bool := !e.members.isEmpty

def byNick? (e : EnumType) (nick : String) : Option EnumMember := e.members.find? (·.nick == nick)

def byValue? (e : EnumType) (value : Int32) : Option EnumMember :=
  e.members.find? (·.value == value)

end EnumType

/-- The names of the enumerated types that some argument mentions. -/
def referencedEnums (ops : List Operation) : List String :=
  Text.sortedNames (((ops.flatMap (·.arguments)).filterMap (·.enumType)).filter (!·.isEmpty))

structure Catalog where
  operations : List Operation := []
  enums : List EnumType := []
  deriving DecidableEq, Repr, Inhabited

namespace Catalog

def operation? (c : Catalog) (name : String) : Option Operation :=
  c.operations.find? (·.name == name)

def enum? (c : Catalog) (name : String) : Option EnumType := c.enums.find? (·.name == name)

def referencedEnums (c : Catalog) : List String := OpCatalog.referencedEnums c.operations

end Catalog

end OpCatalog
