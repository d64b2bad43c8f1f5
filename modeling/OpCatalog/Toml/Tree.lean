import OpCatalog.Toml.Record

/-!
# Trees of tables

The tables of a document while it is read. A table can be opened in three ways, by
its own header, by a header below it and by a dotted key, and that decides who may
still add to it: a header opens a table once, which may be implied by then but not
dotted, and dotted keys add to tables that dotted keys opened.
-/
namespace OpCatalog.Toml

inductive Origin where
  | header
  | implied
  | dotted
  deriving DecidableEq, Repr

inductive Node where
  | value (v : Toml)
  | table (origin : Origin) (entries : List (String × Node))
  /-- An array of tables, the last one first. -/
  | tables (last : List (String × Node)) (before : List (List (String × Node)))
  deriving Inhabited

abbrev Entries := List (String × Node)

namespace Entries

/-- Replaces the entry of a name, or adds one at the end. -/
def set (name : String) (node : Node) : Entries → Entries
  | [] => [(name, node)]
  | (n, old) :: es => if n = name then (n, node) :: es else (n, old) :: set name node es

/-- Gives a value to a key below the dotted path. A key is given once, and the table
at the end of a path of at least one name must be one that dotted keys opened. -/
def assign : List String → String → Toml → Entries → Option Entries
  | [], key, v, es =>
    if (es.lookup key).isSome then none else some (es.set key (.value v))
  | name :: path, key, v, es =>
    match es.lookup name with
    | none => (assign path key v []).map fun inner => es.set name (.table .dotted inner)
    | some (.table .header _) => none
    | some (.table origin inner) =>
      if path.isEmpty && origin != .dotted then none
      else (assign path key v inner).map fun inner => es.set name (.table origin inner)
    | some (.tables last before) =>
      if path.isEmpty then none
      else (assign path key v last).map fun last => es.set name (.tables last before)
    | some (.value _) => none

/-- Changes the table at a path; tables on the way that do not exist are implied. -/
def change (f : Entries → Option Entries) : List String → Entries → Option Entries
  | [], es => f es
  | name :: path, es =>
    match es.lookup name with
    | none => (change f path []).map fun inner => es.set name (.table .implied inner)
    | some (.table origin inner) =>
      (change f path inner).map fun inner => es.set name (.table origin inner)
    | some (.tables last before) =>
      (change f path last).map fun last => es.set name (.tables last before)
    | some (.value _) => none

/-- Opens a table by a header. -/
def openTable (path : List String) (key : String) : Entries → Option Entries :=
  change (fun es =>
    match es.lookup key with
    | none => some (es.set key (.table .header []))
    | some (.table .implied inner) => some (es.set key (.table .header inner))
    | some _ => none) path

/-- Opens the next table of an array of tables. -/
def openElement (path : List String) (key : String) : Entries → Option Entries :=
  change (fun es =>
    match es.lookup key with
    | none => some (es.set key (.tables [] []))
    | some (.tables last before) => some (es.set key (.tables [] (last :: before)))
    | some _ => none) path

end Entries

mutual

def Node.toToml : Node → Toml
  | .value v => v
  | .table _ entries => .table (tomlEntries entries)
  | .tables last before => .array ((tomlTables before).reverse ++ [.table (tomlEntries last)])

def tomlEntries : Entries → List (String × Toml)
  | [] => []
  | (name, node) :: es => (name, node.toToml) :: tomlEntries es

def tomlTables : List Entries → List Toml
  | [] => []
  | es :: rest => .table (tomlEntries es) :: tomlTables rest

end

end OpCatalog.Toml
