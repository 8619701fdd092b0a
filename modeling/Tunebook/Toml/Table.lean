import Tunebook.Json

/-! The tables of a TOML document while it is read: headers, dotted keys and inline tables each make
tables of their own sort, which decides what may still be added to them. No key is given twice. -/
namespace Tunebook.Toml

/-- Where a table comes from. -/
inductive Origin where
  /-- It is named on the way to the table of a header. -/
  | implied
  | header
  | dotted
  | inline
  deriving DecidableEq

inductive Node where
  | value (v : Json)
  | table (origin : Origin) (entries : List (String × Node))
  /-- An array that headers add tables to, the last table first. -/
  | tables (elements : List (List (String × Node)))

instance : Inhabited Node := ⟨.value .null⟩

abbrev Entries := List (String × Node)

namespace Node

mutual

def toJson : Node → Json
  | value v => v
  | table _ entries => .object (toFields entries)
  | tables elements => .array (toItems elements).reverse

def toFields : List (String × Node) → List (String × Json)
  | [] => []
  | (key, node) :: entries => (key, node.toJson) :: toFields entries

def toItems : List (List (String × Node)) → List Json
  | [] => []
  | entries :: elements => .object (toFields entries) :: toItems elements

end

/-- Changes the entries of a table, or of the last table of an array. -/
def change (f : Entries → Option Entries) : Node → Option Node
  | value _ => none
  | table origin entries => (f entries).map (table origin)
  | tables [] => none
  | tables (last :: before) => (f last).map fun last => tables (last :: before)

end Node

namespace Entries

def find? (key : String) (entries : Entries) : Option Node :=
  entries.lookup key

/-- Puts a node in the place of the one of that name, or at the end. -/
def store (key : String) (node : Node) : Entries → Entries
  | [] => [(key, node)]
  | (k, n) :: entries => if k == key then (k, node) :: entries else (k, n) :: store key node entries

/-- Changes what lies under a key, which `enter` makes where it is missing and may refuse. -/
def within (key : String) (enter : Option Node → Option Node) (f : Entries → Option Entries)
    (entries : Entries) : Option Entries := do
  let node ← enter (find? key entries)
  return store key (← node.change f) entries

def add (key : String) (node : Node) (entries : Entries) : Option Entries :=
  match find? key entries with
  | none => some (store key node entries)
  | some _ => none

/-- A dotted key passes through tables of dotted keys, implied tables and arrays of tables. -/
def enterDotted : Option Node → Option Node
  | none => some (.table .dotted [])
  | some (.table .header _) | some (.table .inline _) => none
  | some node => some node

/-- The table that a dotted key adds to is one of dotted keys. -/
def enterLast : Option Node → Option Node
  | none => some (.table .dotted [])
  | some (.table .dotted entries) => some (.table .dotted entries)
  | _ => none

def insert (node : Node) : List String → Entries → Option Entries
  | [], _ => none
  | [key], entries => add key node entries
  | [key, last], entries => within key enterLast (add last node) entries
  | key :: path, entries => within key enterDotted (insert node path) entries

/-- A header passes through any table but an inline one. -/
def enterHeader : Option Node → Option Node
  | none => some (.table .implied [])
  | some (.table .inline _) => none
  | some node => some node

/-- Changes the table that a header names. -/
def along (f : Entries → Option Entries) : List String → Entries → Option Entries
  | [], entries => f entries
  | key :: path, entries => within key enterHeader (along f path) entries

def openTable (key : String) (entries : Entries) : Option Entries :=
  match find? key entries with
  | none => some (store key (.table .header []) entries)
  | some (.table .implied inner) => some (store key (.table .header inner) entries)
  | _ => none

def openElement (key : String) (entries : Entries) : Option Entries :=
  match find? key entries with
  | none => some (store key (.tables [[]]) entries)
  | some (.tables elements) => some (store key (.tables ([] :: elements)) entries)
  | _ => none

def openAt (opening : String → Entries → Option Entries) : List String → Entries → Option Entries
  | [], _ => none
  | [key], entries => opening key entries
  | key :: path, entries => within key enterHeader (openAt opening path) entries

end Entries
end Tunebook.Toml
