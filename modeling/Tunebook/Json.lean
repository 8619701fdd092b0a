import Tunebook.Number.Double

/-! The values of JSON. The fields of an object are in the order of the text, and no two of them
have one name. -/
namespace Tunebook

inductive Json where
  | null
  | bool (b : Bool)
  | integer (n : Int)
  | float (x : Double)
  | string (s : String)
  | array (items : List Json)
  | object (fields : List (String × Json))

namespace Json

instance : Inhabited Json := ⟨null⟩

/-- A field of an object. -/
def get? (key : String) : Json → Option Json
  | object fields => fields.lookup key
  | _ => none

def fieldsOf : Json → List (String × Json)
  | object fields => fields
  | _ => []

def toNat? : Json → Option Nat
  | integer n => n.toNat?
  | _ => none

def toString? : Json → Option String
  | string s => some s
  | _ => none

def toBool? : Json → Option Bool
  | bool b => some b
  | _ => none

def toList? : Json → Option (List Json)
  | array items => some items
  | _ => none

def ofNat (n : Nat) : Json :=
  integer n

def ofText (t : Text) : Json :=
  string (String.ofList t)

def ofOption (f : α → Json) : Option α → Json
  | some a => f a
  | none => null

def ofList (f : α → Json) (items : List α) : Json :=
  array (items.map f)

end Json
end Tunebook
