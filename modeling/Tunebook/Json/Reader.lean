import Tunebook.Json

/-! Reading JSON. Values nest at most 127 deep. A float is read by steps that each round, so that it
need not be the double nearest to its text; one too large is refused. Surrogates that stand alone
are refused too. -/
namespace Tunebook.Json.Reader

def isSpace (c : Char) : Bool :=
  c = ' ' || c = '\t' || c = '\n' || c = '\r'

def skip (cs : Text) : Text :=
  cs.dropWhile isSpace

def unit : Text → Option (Nat × Text)
  | a :: b :: c :: d :: cs => do
    let a ← Number.digit? 16 a
    let b ← Number.digit? 16 b
    let c ← Number.digit? 16 c
    let d ← Number.digit? 16 d
    some (((a * 16 + b) * 16 + c) * 16 + d, cs)
  | _ => none

def isLead (n : Nat) : Bool :=
  0xd800 ≤ n && n ≤ 0xdbff

def isTrail (n : Nat) : Bool :=
  0xdc00 ≤ n && n ≤ 0xdfff

/-- What follows `\u`: one unit, or a pair of surrogates. -/
def codePoint (cs : Text) : Option (Char × Text) := do
  let (n, cs) ← unit cs
  if isTrail n then none
  else if isLead n then
    match cs with
    | '\\' :: 'u' :: cs =>
      let (m, cs) ← unit cs
      if isTrail m then
        some (Char.ofNat (0x10000 + (n - 0xd800) * 0x400 + (m - 0xdc00)), cs)
      else none
    | _ => none
  else some (Char.ofNat n, cs)

/-- What follows a backslash. -/
def escape : Text → Option (Char × Text)
  | '"' :: cs => some ('"', cs)
  | '\\' :: cs => some ('\\', cs)
  | '/' :: cs => some ('/', cs)
  | 'b' :: cs => some ('\x08', cs)
  | 'f' :: cs => some ('\x0c', cs)
  | 'n' :: cs => some ('\n', cs)
  | 'r' :: cs => some ('\r', cs)
  | 't' :: cs => some ('\t', cs)
  | 'u' :: cs => codePoint cs
  | _ => none

/-- A string up to its closing quote. `fuel` bounds its length. -/
def chars : Nat → Text → Option (Text × Text)
  | 0, _ => none
  | fuel + 1, cs =>
    match cs with
    | '"' :: cs => some ([], cs)
    | '\\' :: cs => do
      let (c, cs) ← escape cs
      let (t, cs) ← chars fuel cs
      some (c :: t, cs)
    | c :: cs =>
      if c < ' ' then none
      else do
        let (t, cs) ← chars fuel cs
        some (c :: t, cs)
    | [] => none

def digits (cs : Text) : Option (Text × Text) :=
  match cs.span Char.isDigit with
  | ([], _) => none
  | run => some run

def whole : Text → Option (Text × Text)
  | '0' :: cs => if cs.head?.any Char.isDigit then none else some (['0'], cs)
  | cs => digits cs

def fraction : Text → Option (Text × Text)
  | '.' :: cs => digits cs
  | cs => some ([], cs)

/-- The exponent, if there is one. -/
def power : Text → Option (Option Int × Text)
  | e :: cs =>
    if e = 'e' || e = 'E' then do
      let (negative, cs) := match cs with
        | '-' :: cs => (true, cs)
        | '+' :: cs => (false, cs)
        | cs => (false, cs)
      let (run, cs) ← digits cs
      let n : Int := Number.ofDigits run
      some (some (if negative then -n else n), cs)
    else some (none, e :: cs)
  | [] => some (none, [])

/-- Puts digits behind a number of 64 bits as long as they fit, and counts the others. -/
def gather (n : Nat) : Text → Nat × Nat
  | [] => (n, 0)
  | c :: cs =>
    let m := 10 * n + Number.digitValue c
    if m < Number.word64 then gather m cs else (n, cs.length + 1)

def integer (negative : Bool) (n : Nat) : Json :=
  if !negative then .integer n
  else if n = 0 || Number.word64 < 2 * n then .float (.ofDecimal true n 0)
  else .integer (-n)

/-- The float `n * 10 ^ exponent`. The number is rounded first, and again with each power of ten
that a double can hold. -/
def float (negative : Bool) (n : Nat) (exponent : Int) : Option Double :=
  let x := Double.ofDecimal negative n 0
  let last : Int := 308
  if n = 0 || exponent < -2 * last then some (.zero negative)
  else if last < exponent then none
  else
    let y :=
      if exponent < -last then (x.timesTen (-last)).timesTen (exponent + last)
      else x.timesTen exponent
    match y with
    | .infinite _ => none
    | y => some y

/-- A number after its sign. Digits that 64 bits cannot hold count by their places alone. -/
def number (negative : Bool) (cs : Text) : Option (Json × Text) := do
  let (whole, cs) ← whole cs
  let (places, cs) ← fraction cs
  let (exponent, cs) ← power cs
  let (n, beyond) := gather 0 whole
  if places.isEmpty && exponent.isNone && beyond = 0 then some (integer negative n, cs)
  else do
    let (m, dropped) := gather n places
    let shift : Int := (beyond : Int) + dropped - places.length
    some (.float (← float negative m (exponent.getD 0 + shift)), cs)

def word (expected : String) (value : Json) (cs : Text) : Option (Json × Text) :=
  if expected.toList.isPrefixOf cs then some (value, cs.drop expected.length) else none

/-- Puts a field ahead of the others, unless one of them has its name: the last of a name counts. -/
def addField (key : String) (value : Json) (fields : List (String × Json)) :
    List (String × Json) :=
  if fields.any (·.1 == key) then fields else (key, value) :: fields

mutual

/-- A value. `depth` bounds nesting, and `fuel` the work. -/
def value : Nat → Nat → Text → Option (Json × Text)
  | 0, _, _ => none
  | fuel + 1, depth, cs =>
    match skip cs with
    | 'n' :: cs => word "ull" .null cs
    | 't' :: cs => word "rue" (.bool true) cs
    | 'f' :: cs => word "alse" (.bool false) cs
    | '"' :: cs => do
      let (t, cs) ← chars (cs.length + 1) cs
      some (ofText t, cs)
    | '-' :: cs => number true cs
    | '[' :: cs =>
      match depth, skip cs with
      | 0, _ => none
      | _, ']' :: cs => some (.array [], cs)
      | depth + 1, cs => do
        let (items, cs) ← items fuel depth cs
        some (.array items, cs)
    | '\x7b' :: cs =>
      match depth, skip cs with
      | 0, _ => none
      | _, '\x7d' :: cs => some (.object [], cs)
      | depth + 1, cs => do
        let (fields, cs) ← fields fuel depth cs
        some (.object fields, cs)
    | cs => number false cs

def items : Nat → Nat → Text → Option (List Json × Text)
  | 0, _, _ => none
  | fuel + 1, depth, cs => do
    let (item, cs) ← value fuel depth cs
    match skip cs with
    | ',' :: cs =>
      let (rest, cs) ← items fuel depth cs
      some (item :: rest, cs)
    | ']' :: cs => some ([item], cs)
    | _ => none

def fields : Nat → Nat → Text → Option (List (String × Json) × Text)
  | 0, _, _ => none
  | fuel + 1, depth, cs =>
    match skip cs with
    | '"' :: cs => do
      let (key, cs) ← chars (cs.length + 1) cs
      match skip cs with
      | ':' :: cs =>
        let (field, cs) ← value fuel depth cs
        match skip cs with
        | ',' :: cs =>
          let (rest, cs) ← fields fuel depth cs
          some (addField (String.ofList key) field rest, cs)
        | '\x7d' :: cs => some ([(String.ofList key, field)], cs)
        | _ => none
      | _ => none
    | _ => none

end

end Reader

def parse? (t : Text) : Option Json :=
  match Reader.value (2 * t.length + 2) 127 t with
  | some (j, rest) => if (Reader.skip rest).isEmpty then some j else none
  | none => none

end Tunebook.Json
