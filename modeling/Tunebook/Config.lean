import Tunebook.Config.Settings
import Tunebook.Json.Reader
import Tunebook.Number.Shortest
import Tunebook.Rhythm.Length
import Tunebook.Text.Utf8
import Tunebook.Toml.Reader

/-! The configuration, and loading it from layers. Later layers win, single overrides beat them all,
and values are checked once everything is merged. -/
namespace Tunebook

/-- `source` tags diagnostics, and `decorations` switches their completion on. -/
structure Config where
  source : String
  limits : Limits
  decorations : Bool
  deriving DecidableEq, Repr

namespace Config

def default : Config :=
  ⟨"abc", ⟨64, 64⟩, true⟩

inductive LoadError where
  /-- A layer is not a valid text, or not a table at its top. -/
  | malformed
  /-- A value does not convert. -/
  | mistyped
  /-- A section is neither table nor list, or lacks a value. -/
  | misshapen
  /-- The name of an override is no path. -/
  | badPath
  /-- A file that has to be there is not. -/
  | missingFile
  deriving DecidableEq, Repr

def LoadError.label : LoadError → String
  | malformed => "FileParse"
  | mistyped => "Type"
  | misshapen => "Message"
  | badPath => "PathParse"
  | missingFile => "Foreign"

def LoadError.message : LoadError → String
  | malformed => "a layer is not a table of settings"
  | mistyped => "a value has the wrong type"
  | misshapen => "a section or a value is missing"
  | badPath => "the name of an override is not a path"
  | missingFile => "a file cannot be read"

inductive Layer where
  | json (text : Text)
  /-- A file, in TOML. -/
  | file (bytes : List UInt8)
  /-- A file that could not be read. -/
  | unreadable
  /-- One value, set over all layers. -/
  | override (path : String) (value : Json)

def toJson (c : Config) : Json :=
  .object
    [("diagnostics", .object [("source", .string c.source)]),
     ("rhythm", .object [("max_numerator", .ofNat c.limits.numerator),
       ("max_denominator", .ofNat c.limits.denominator)]),
     ("completion", .object [("decorations", .bool c.decorations)])]

/-- The text of a file of settings. A byte order mark at its start and bytes that are no text do no
harm. -/
def fileText (bytes : List UInt8) : Text :=
  match bytes with
  | 0xef :: 0xbb :: 0xbf :: rest => Text.ofUtf8Lossy rest
  | bytes => Text.ofUtf8Lossy bytes

/-- The settings of a layer. An override has none, it comes after all of them. -/
def Layer.read : Layer → Except LoadError (List (String × Json))
  | json text => top (Json.parse? text)
  | file bytes => top (Toml.parse? (fileText bytes))
  | unreadable => .error .missingFile
  | override _ _ => .ok []
where
  top : Option Json → Except LoadError (List (String × Json))
    | some (.object fields) => .ok fields
    | _ => .error .malformed

def Layer.override? : Layer → Option (String × Json)
  | override path value => some (path, value)
  | _ => none

def assignAll (root : Json) (fields : List (String × Json)) : Json :=
  fields.foldl (fun root (name, value) => Settings.assign root name value) root

/-- Beyond 64 bits a whole number counts as a float. -/
def isInteger (n : Int) : Bool :=
  Number.isSigned Number.word64 n

/-- A float as a number: rounded, halves away from zero, and 0 if it is negative or none. -/
def wordOfFloat : Double → Option Nat
  | .finite false mantissa exponent => some (Magnitude.mk mantissa exponent).quotient.roundUp
  | .infinite false => none
  | _ => some 0

def wordOfString (s : String) : Option Nat :=
  if ["true", "on", "yes"].contains s.toLower then some 1
  else if ["false", "off", "no"].contains s.toLower then some 0
  else Number.readBelow? Number.word32 s.toList

def word? (v : Json) : Option Nat :=
  let n? := match v with
    | .integer n => if isInteger n then n.toNat? else wordOfFloat (.ofInt n)
    | .float x => wordOfFloat x
    | .bool b => some (if b then 1 else 0)
    | .string s => wordOfString s
    | _ => none
  n?.filter (· < Number.word32)

def flag? : Json → Option Bool
  | .bool b => some b
  | .integer n => some (n ≠ 0)
  | .float x => some (!x.isZero)
  | .string s =>
    if ["1", "true", "on", "yes"].contains s.toLower then some true
    else if ["0", "false", "off", "no"].contains s.toLower then some false
    else none
  | _ => none

def string? : Json → Option String
  | .string s => some s
  | .bool b => some (if b then "true" else "false")
  | .integer n => some (if isInteger n then toString n else (Double.ofInt n).display)
  | .float x => some x.display
  | _ => none

/-- A section of the settings: a table, or the list of its values in the order of their names. -/
def sectionOf (root : Json) (name : String) (names : List String) :
    Except LoadError (List (String × Json)) :=
  match root.get? name with
  | some (.object fields) => .ok fields
  | some (.array items) => .ok (names.zip items)
  | _ => .error .misshapen

def valueOf? (fields : List (String × Json)) (name : String) (convert : Json → Option α) :
    Except LoadError (Option α) :=
  match fields.lookup name with
  | none => .ok none
  | some v => (convert v).elim (.error .mistyped) (.ok ∘ some)

def required (o : Option α) : Except LoadError α :=
  o.elim (.error .misshapen) .ok

/-- The values that a section has are converted before one that it lacks is missed. -/
def ofSettings (root : Json) : Except LoadError Config := do
  let diagnostics ← sectionOf root "diagnostics" ["source"]
  let source ← valueOf? diagnostics "source" string? >>= required
  let rhythm ← sectionOf root "rhythm" ["max_numerator", "max_denominator"]
  let numerator ← valueOf? rhythm "max_numerator" word?
  let denominator ← valueOf? rhythm "max_denominator" word?
  let limits : Limits := ⟨← required numerator, ← required denominator⟩
  let completion ← sectionOf root "completion" ["decorations"]
  let decorations ← valueOf? completion "decorations" flag? >>= required
  return ⟨source, limits, decorations⟩

/-- An override with a bad path is refused as soon as it is set, before any layer is read. -/
def load (layers : List Layer) : Except LoadError Config := do
  let overrides := layers.filterMap Layer.override?
  if overrides.any fun o => (Settings.readPath? o.1).isNone then throw .badPath
  let read ← layers.mapM Layer.read
  ofSettings (assignAll (read.foldl assignAll default.toJson) overrides)

end Config
end Tunebook
