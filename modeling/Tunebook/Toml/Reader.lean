import Tunebook.Toml.Moment
import Tunebook.Toml.Quoted
import Tunebook.Toml.Scalar
import Tunebook.Toml.Table

/-! Reading TOML into the values of JSON. Dates and times become text. A key or a table that is
given twice is refused, and so is nesting beyond 79 levels. -/
namespace Tunebook.Toml.Reader

/-- How deep arrays and inline tables nest, and how many names a dotted key has at most. -/
def depthLimit : Nat := 79

def isBare (c : Char) : Bool :=
  c.isAlphanum || c = '-' || c = '_'

def skipComment (cs : Text) : Text :=
  match cs with
  | '#' :: cs => cs.dropWhile (!isControl ·)
  | cs => cs

def skipLines : Nat → Text → Text
  | 0, cs => cs
  | fuel + 1, cs =>
    let cs := skipComment (skip cs)
    match newline? cs with
    | some cs => skipLines fuel cs
    | none => cs

def finishLine (cs : Text) : Option Text :=
  match skipComment (skip cs) with
  | [] => some []
  | cs => newline? cs

def simpleKey : Text → Option (String × Text)
  | '"' :: cs => do
    let (t, cs) ← Quoted.basic (cs.length + 1) cs
    some (String.ofList t, cs)
  | '\x27' :: cs => do
    let (t, cs) ← Quoted.literal cs
    some (String.ofList t, cs)
  | cs =>
    match cs.takeWhile isBare with
    | [] => none
    | t => some (String.ofList t, cs.dropWhile isBare)

def key : Nat → Text → Option (List String × Text)
  | 0, _ => none
  | names + 1, cs => do
    let (first, cs) ← simpleKey (skip cs)
    match skip cs with
    | '.' :: cs =>
      let (path, cs) ← key names cs
      some (first :: path, cs)
    | cs => some ([first], cs)

def scalar (cs : Text) : Option (Json × Text) :=
  match Moment.read? cs with
  | some (moment, cs) => some (.string moment.display, cs)
  | none => Scalar.read? cs

mutual

/-- A value. `depth` bounds nesting, and `fuel` the work. -/
def value : Nat → Nat → Text → Option (Node × Text)
  | 0, _, _ => none
  | fuel + 1, depth, cs =>
    match cs, depth with
    | '"' :: '"' :: '"' :: cs, _ => text (Quoted.long? '"' true cs)
    | '\x27' :: '\x27' :: '\x27' :: cs, _ => text (Quoted.long? '\x27' false cs)
    | '"' :: cs, _ => text (Quoted.basic (cs.length + 1) cs)
    | '\x27' :: cs, _ => text (Quoted.literal cs)
    | '[' :: _, 0 | '\x7b' :: _, 0 => none
    | '[' :: cs, depth + 1 => do
      let (items, cs) ← items fuel depth cs
      some (.value (.array (items.map Node.toJson)), cs)
    | '\x7b' :: cs, depth + 1 =>
      match skip cs with
      | '\x7d' :: cs => some (.table .inline [], cs)
      | cs => do
        let (entries, cs) ← entries fuel depth [] cs
        some (.table .inline entries, cs)
    | cs, _ => (scalar cs).map fun (v, cs) => (.value v, cs)
where
  text (read : Option (Text × Text)) : Option (Node × Text) :=
    read.map fun (t, cs) => (.value (.ofText t), cs)

/-- The rest of an array. A comma may follow the last item. -/
def items : Nat → Nat → Text → Option (List Node × Text)
  | 0, _, _ => none
  | fuel + 1, depth, cs =>
    match skipLines (cs.length + 1) cs with
    | ']' :: cs => some ([], cs)
    | cs => do
      let (item, cs) ← value fuel depth cs
      match skipLines (cs.length + 1) cs with
      | ',' :: cs =>
        let (rest, cs) ← items fuel depth cs
        some (item :: rest, cs)
      | ']' :: cs => some ([item], cs)
      | _ => none

/-- The rest of an inline table. -/
def entries : Nat → Nat → Entries → Text → Option (Entries × Text)
  | 0, _, _, _ => none
  | fuel + 1, depth, done, cs => do
    let (path, cs) ← key depthLimit cs
    let '=' :: cs := skip cs | none
    let (node, cs) ← value fuel depth (skip cs)
    let done ← Entries.insert node path done
    match skip cs with
    | ',' :: cs => entries fuel depth done cs
    | '\x7d' :: cs => some (done, cs)
    | _ => none

end

/-- A header after its first bracket: the names in it, and how it opens what they name. -/
def header (cs : Text) : Option (List String × (String → Entries → Option Entries) × Text) :=
  match cs with
  | '[' :: cs => do
    let (path, cs) ← key depthLimit cs
    let ']' :: ']' :: cs := cs | none
    some (path, Entries.openElement, cs)
  | cs => do
    let (path, cs) ← key depthLimit cs
    let ']' :: cs := cs | none
    some (path, Entries.openTable, cs)

/-- The lines of a document. `current` is the table that entries go to. -/
def document : Nat → List String → Entries → Text → Option Entries
  | 0, _, _, _ => none
  | fuel + 1, current, root, cs =>
    match skipLines (cs.length + 1) cs with
    | [] => some root
    | '[' :: cs => do
      let (path, opening, cs) ← header cs
      let cs ← finishLine cs
      document fuel path (← Entries.openAt opening path root) cs
    | cs => do
      let (path, cs) ← key depthLimit cs
      let '=' :: cs := cs | none
      let (node, cs) ← value (2 * cs.length + 2) depthLimit (skip cs)
      let cs ← finishLine cs
      document fuel current (← Entries.along (Entries.insert node path) current root) cs

end Reader

/-- The object that a text writes, if it is valid. A byte order mark may come first. -/
def parse? (t : Text) : Option Json :=
  let t := if t.head? = some '\ufeff' then t.tail else t
  (Reader.document (t.length + 1) [] [] t).map fun root => .object (Node.toFields root)

end Tunebook.Toml
