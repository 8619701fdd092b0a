import Tunebook.Json
import Tunebook.Number.Word
import Tunebook.Uri

/-! What JSON a parameter may be, and reading it into one form: records are objects, what is null
where it may be missing is left out, and URIs have their shared form. -/
namespace Tunebook.Server

inductive Shape where
  | any
  | flag
  /-- A whole number of 32 bits. -/
  | word
  /-- A whole number of 32 bits with its sign. -/
  | integer
  | text
  | uri
  /-- One of some words, which may also be the only name in an object. -/
  | choice (words : List String)
  | list (item : Shape)
  | either (a b : Shape)
  /-- What may be missing, or be null. -/
  | optional (s : Shape)
  /-- An object with these members, or the list of them all in order. -/
  | record (members : List (String × Shape))
  /-- An object with these members and others, which all have one shape. -/
  | fields (members : List (String × Shape)) (others : Shape)

namespace Shape

def isOptional : Shape → Bool
  | optional _ => true
  | _ => false

def readWord? (words : List String) : Json → Option Json
  | .string s | .object [(s, .null)] => if words.contains s then some (.string s) else none
  | _ => none

def readUri? (j : Json) : Option Json := do
  return .string (← Uri.ofText? (← j.toString?).toList).display

/-- Puts a member ahead of others, unless it is null. -/
def addMember (name : String) (value : Json) (members : List (String × Json)) :
    List (String × Json) :=
  match value with
  | .null => members
  | value => (name, value) :: members

mutual

def read? : Shape → Json → Option Json
  | any, j => some j
  | flag, j => j.toBool?.map .bool
  | word, j => (j.toNat?.filter (· < Number.word32)).map .ofNat
  | integer, .integer n => if Number.isSigned Number.word32 n then some (.integer n) else none
  | integer, _ => none
  | text, j => j.toString?.map .string
  | uri, j => readUri? j
  | choice words, j => readWord? words j
  | list item, .array items => (items.mapM item.read?).map .array
  | list _, _ => none
  | either a b, j => (a.read? j).or (b.read? j)
  | optional _, .null => some .null
  | optional s, j => s.read? j
  | record members, .object given => (readFields? members given).map .object
  | record members, .array items => (readItems? members items).map .object
  | record _, _ => none
  | fields members others, .object given => do
    let read ← readFields? members given
    let rest := given.filter fun (name, _) => !members.any (·.1 == name)
    let _ ← rest.mapM fun (_, j) => others.read? j
    some (.object read)
  | fields _ _, _ => none

def readFields? : List (String × Shape) → List (String × Json) → Option (List (String × Json))
  | [], _ => some []
  | (name, shape) :: members, given => do
    let rest ← readFields? members given
    match given.lookup name with
    | some j => return addMember name (← shape.read? j) rest
    | none => if shape.isOptional then some rest else none

def readItems? : List (String × Shape) → List Json → Option (List (String × Json))
  | [], [] => some []
  | (name, shape) :: members, j :: items => do
    return addMember name (← shape.read? j) (← readItems? members items)
  | _, _ => none

end

end Shape
end Tunebook.Server
