import OpCatalog.Registry.Parameter
import OpCatalog.Registry.Fundamental

/-!
# Type definitions

A type as it is written down before it is registered: other types are named, not
yet known. Definitions are built up from a name, one setting at a time.
-/
namespace OpCatalog

structure ArgumentDefinition where
  name : String
  typeName : String
  flags : List ParamFlag := []
  priority : Int32 := 0
  value : ParamValue := .other
  deriving DecidableEq, Repr, Inhabited

structure TypeDefinition where
  name : String
  parent : Option String := none
  nickname : Option String := none
  /-- Taken over from the parent where it is not given. -/
  fundamental : Option Fundamental := none
  isAbstract : Bool := false
  /-- Instantiation fails although the type is not abstract. -/
  isBroken : Bool := false
  description : Option String := none
  arguments : List ArgumentDefinition := []
  members : List RawMember := []
  deriving DecidableEq, Repr, Inhabited

namespace TypeDefinition

def named (name : String) : TypeDefinition := { name := name }

/-- A new enumeration. -/
def enumeration (name : String) : TypeDefinition := { name := name, parent := some "GEnum" }

/-- A new flags type. -/
def flagsType (name : String) : TypeDefinition := { name := name, parent := some "GFlags" }

def withParent (d : TypeDefinition) (parent : String) : TypeDefinition :=
  { d with parent := some parent }

def withNickname (d : TypeDefinition) (nickname : String) : TypeDefinition :=
  { d with nickname := some nickname }

def withFundamental (d : TypeDefinition) (fundamental : Fundamental) : TypeDefinition :=
  { d with fundamental := some fundamental }

def withDescription (d : TypeDefinition) (description : String) : TypeDefinition :=
  { d with description := some description }

def asAbstract (d : TypeDefinition) : TypeDefinition := { d with isAbstract := true }

def asBroken (d : TypeDefinition) : TypeDefinition := { d with isBroken := true }

def addArgument (d : TypeDefinition) (a : ArgumentDefinition) : TypeDefinition :=
  { d with arguments := d.arguments ++ [a] }

def addMember (d : TypeDefinition) (name nick : String) (value : Int32) : TypeDefinition :=
  { d with members := d.members ++ [⟨some name, some nick, value⟩] }

end TypeDefinition

namespace ParamFlag

/-- The flags of an input that must be given. -/
def requiredInput : List ParamFlag := [.required, .construct, .input]

/-- The flags of an input that may be left out. -/
def optionalInput : List ParamFlag := [.construct, .input]

/-- The flags of an output. -/
def requiredOutput : List ParamFlag := [.required, .construct, .output]

end ParamFlag

end OpCatalog
