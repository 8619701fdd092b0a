import Tunebook.Json

/-! Settings: the values of all sources merged into one object. Names do not depend on case. A table
is merged into what is there, and any other value takes its place. -/
namespace Tunebook

namespace Json

def itemsOf : Json → List Json
  | array items => items
  | _ => []

/-- Puts a value in the place of the one of that name, or at the end. -/
def store (key : String) (value : Json) : List (String × Json) → List (String × Json)
  | [] => [(key, value)]
  | (k, v) :: fields =>
    if k == key then (k, value) :: fields else (k, v) :: store key value fields

end Json

namespace Settings

mutual

/-- Sets a name in a table, which takes the place of anything else. -/
def put (root : Json) (key : String) : Json → Json
  | .object fields =>
    let target := (root.get? key.toLower).getD (.object [])
    .object (Json.store key.toLower (putAll target fields) root.fieldsOf)
  | value => .object (Json.store key.toLower value root.fieldsOf)

def putAll (root : Json) : List (String × Json) → Json
  | [] => root
  | (key, value) :: fields => putAll (put root key value) fields

end

/-- A step of a path: a name in a table, or a place in a list. A negative place counts from the end.
-/
inductive Segment where
  | key (name : String)
  | index (n : Int)

def isNameChar (c : Char) : Bool :=
  c.isAlphanum || c = '_' || c = '-' || c = ' '

def skipBlanks (cs : Text) : Text :=
  cs.dropWhile fun c => c = ' ' || c = '\t'

/-- A place in a list, up to its closing bracket: a number of 64 bits between blanks. -/
def readIndex? (cs : Text) : Option (Int × Text) :=
  let (negative, cs) := match skipBlanks cs with
    | '-' :: cs => (true, cs)
    | cs => (false, cs)
  let size : Int := Number.ofDigits (cs.takeWhile Char.isDigit)
  let n := if negative then -size else size
  match cs.takeWhile Char.isDigit, skipBlanks (cs.dropWhile Char.isDigit) with
  | _ :: _, ']' :: cs => if Number.isSigned Number.word64 n then some (n, cs) else none
  | _, _ => none

/-- Reads what follows the first name of a path: `.name` or `[n]`, any number of times. -/
def readSegments : Nat → Text → Option (List Segment)
  | _, [] => some []
  | 0, _ => none
  | fuel + 1, '.' :: cs =>
    match cs.takeWhile isNameChar with
    | [] => none
    | name => (readSegments fuel (cs.dropWhile isNameChar)).map (.key (String.ofList name) :: ·)
  | fuel + 1, '[' :: cs => do
    let (n, cs) ← readIndex? cs
    (readSegments fuel cs).map (.index n :: ·)
  | _, _ => none

/-- A path starts with a name. -/
def readPath? (path : String) : Option (String × List Segment) :=
  let cs := path.toList
  match cs.takeWhile isNameChar with
  | [] => none
  | name =>
    (readSegments cs.length (cs.dropWhile isNameChar)).map fun rest => (String.ofList name, rest)

/-- A list made long enough to have the place, and the place counted from its start. -/
def reach (items : List Json) (n : Int) : List Json × Nat :=
  let place : Int := if n < 0 then items.length + n else n
  let front := List.replicate (-place).toNat .null
  let back := List.replicate (place + 1 - items.length).toNat .null
  (front ++ items ++ back, place.toNat)

def putPath (value : Json) (root : Json) : Segment → List Segment → Json
  | .key name, [] => put root name value
  | .key name, next :: rest =>
    let inner := (root.get? name.toLower).getD .null
    .object (Json.store name.toLower (putPath value inner next rest) root.fieldsOf)
  | .index n, [] =>
    let (items, place) := reach root.itemsOf n
    .array (items.set place value)
  | .index n, next :: rest =>
    let (items, place) := reach root.itemsOf n
    .array (items.set place (putPath value (items.getD place .null) next rest))

/-- Sets a name that may be a path. One that is no path counts as a plain name. -/
def assign (root : Json) (name : String) (value : Json) : Json :=
  match readPath? name with
  | some (first, rest) => putPath value root (.key first) rest
  | none => put root name value

end Settings
end Tunebook
