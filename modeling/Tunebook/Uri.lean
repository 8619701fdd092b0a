import Tunebook.Uri.Host

/-! URIs in the one form that all spellings of them share: scheme and host in lower case, no dot
segments in the path, no usual service, and escapes where a part needs them. -/
namespace Tunebook

structure Uri where
  scheme : String
  /-- What stands between two slashes and the path. -/
  authority : Option String
  path : Text
  query : Option Text
  fragment : Option Text

namespace Uri

/-- The numbers that the schemes which name machines are served under. -/
def usualService? : String → Option Nat
  | "http" | "ws" => some 80
  | "https" | "wss" => some 443
  | "ftp" => some 21
  | _ => none

/-- In special schemes a backslash counts as a slash. -/
def isSpecial (scheme : String) : Bool :=
  scheme == "file" || (usualService? scheme).isSome

def isSlash (special : Bool) (c : Char) : Bool :=
  c = '/' || (special && c = '\\')

/-- Controls and spaces at both ends do not count, nor do tabs and line ends anywhere. -/
def clean (t : Text) : Text :=
  (dropTrailing (· ≤ ' ') (t.dropWhile (· ≤ ' '))).filter fun c =>
    c ≠ '\t' && c ≠ '\n' && c ≠ '\r'

def isSchemeChar (c : Char) : Bool :=
  c.isAlphanum || c = '+' || c = '-' || c = '.'

def readScheme? (t : Text) : Option (String × Text) :=
  if !(t.head?.any Char.isAlpha) then none
  else match t.dropWhile isSchemeChar with
    | ':' :: rest => some (String.ofList ((t.takeWhile isSchemeChar).map Char.toLower), rest)
    | _ => none

/-! Paths. -/

def splitSegments (special : Bool) : Text → List Text
  | [] => [[]]
  | c :: cs =>
    if isSlash special c then [] :: splitSegments special cs
    else match splitSegments special cs with
      | [] => [[c]]
      | segment :: segments => (c :: segment) :: segments

/-- The segment with its escaped dots as dots. -/
def dots : Text → Text
  | '%' :: '2' :: 'e' :: cs | '%' :: '2' :: 'E' :: cs => '.' :: dots cs
  | c :: cs => c :: dots cs
  | [] => []

def isDrive : Text → Bool
  | [letter, mark] => letter.isAlpha && (mark = ':' || mark = '|')
  | _ => false

/-- Drops the last segment, unless it is the drive of a file. -/
def shorten (file : Bool) (done : List Text) : List Text :=
  match done with
  | [drive] => if file && isDrive drive then done else []
  | done => done.dropLast

/-- The segments without the dotted ones. A drive of a file has a colon. -/
def resolve (file : Bool) (done : List Text) : List Text → List Text
  | [] => done
  | segment :: segments =>
    let ending : List Text := if segments.isEmpty then [[]] else []
    if dots segment = ['.', '.'] then resolve file (shorten file done ++ ending) segments
    else if dots segment = ['.'] then resolve file (done ++ ending) segments
    else if file && done.isEmpty && isDrive segment then
      resolve file [segment.take 1 ++ [':']] segments
    else resolve file (done ++ [Percent.encode pathEscapes segment]) segments

/-- The path of what follows its first slash. The path of a file does not start with two slashes. -/
def pathOf (scheme : String) (t : Text) : Text :=
  let segments := resolve (scheme == "file") [] (splitSegments (isSpecial scheme) t)
  let segments := if scheme == "file" then segments.dropWhile List.isEmpty else segments
  '/' :: ['/'].intercalate segments

/-! Authorities. -/

def splitUser (t : Text) : Option Text × Text :=
  match t.reverse.dropWhile (· ≠ '@') with
  | _ :: user => (some user.reverse, (t.reverse.takeWhile (· ≠ '@')).reverse)
  | [] => (none, t)

def userOf (user : Text) : Text :=
  let name := Percent.encode userEscapes (user.takeWhile (· ≠ ':'))
  let word := Percent.encode userEscapes ((user.dropWhile (· ≠ ':')).drop 1)
  let shown := name ++ if word.isEmpty then [] else ':' :: word
  if shown.isEmpty then [] else shown ++ ['@']

/-- A host ends at a colon that is not in brackets. -/
def splitHost (inBrackets : Bool) : Text → Text × Text
  | [] => ([], [])
  | c :: cs =>
    if c = ':' && !inBrackets then ([], c :: cs)
    else
      let (host, rest) := splitHost (c = '[' || (inBrackets && c ≠ ']')) cs
      (c :: host, rest)

/-- The number of a service, of 16 bits, and `none` where it goes without saying. -/
def service? (scheme : String) (digits : Text) : Option (Option Nat) :=
  if digits.isEmpty then some none
  else if !digits.all Char.isDigit || 0xffff < Number.ofDigits digits then none
  else
    let service := Number.ofDigits digits
    some (if usualService? scheme = some service then none else some service)

/-- User, host and service. Only other schemes than the special ones do without a host, and then
without a user and a service. -/
def authority? (scheme : String) (t : Text) : Option String := do
  let (user, rest) := splitUser t
  let (host, rest) := splitHost false rest
  if host.isEmpty then
    if isSpecial scheme || user.isSome || !rest.isEmpty then none else some ""
  else
    let user := userOf (user.getD [])
    let host ← if isSpecial scheme then Host.ofText? host else Host.verbatim? host
    let service ← service? scheme (rest.drop 1)
    some (String.ofList user ++ host.display ++ (service.elim "" fun n => ":" ++ toString n))

/-! Whole URIs. -/

def splitParts (t : Text) : Text × Option Text × Option Text :=
  let fragment := match t.dropWhile (· ≠ '#') with
    | _ :: fragment => some fragment
    | [] => none
  let t := t.takeWhile (· ≠ '#')
  let query := match t.dropWhile (· ≠ '?') with
    | _ :: query => some query
    | [] => none
  (t.takeWhile (· ≠ '?'), query, fragment)

/-- The host of a file, and the path behind it. The machine itself has no name, and no host has a
drive. -/
def fileParts? (t : Text) : Option (String × Text) :=
  match t with
  | a :: b :: rest =>
    if isSlash true a && isSlash true b then
      let host := rest.takeWhile (!isSlash true ·)
      let path := pathOf "file" ((rest.dropWhile (!isSlash true ·)).drop 1)
      if isDrive host then some ("", pathOf "file" rest)
      else if host.isEmpty then some ("", path)
      else do
        let host ← Host.ofText? host
        let named := host.display != "localhost" && !isDrive ((path.drop 1).takeWhile (· ≠ '/'))
        some (if named then host.display else "", path)
    else some ("", pathOf "file" (if isSlash true a then b :: rest else t))
  | [a] => some ("", pathOf "file" (if isSlash true a then [] else t))
  | [] => some ("", ['/'])

/-- The authority and the path. A path without a slash at its start is kept nearly as it is. -/
def parts? (scheme : String) (t : Text) : Option (Option String × Text) :=
  let special := isSpecial scheme
  if scheme == "file" then (fileParts? t).map fun (host, path) => (some host, path)
  else
    let named (t : Text) : Option (Option String × Text) := do
      let authority ← authority? scheme (t.takeWhile (!isSlash special ·))
      match t.dropWhile (!isSlash special ·) with
      | [] => some (some authority, if special then ['/'] else [])
      | _ :: path => some (some authority, pathOf scheme path)
    match t with
    | '/' :: '/' :: rest => named (if special then rest.dropWhile (isSlash special) else rest)
    | t =>
      if special then named (t.dropWhile (isSlash special))
      else match t with
        | '/' :: path => some (none, pathOf scheme path)
        | path => some (none, Percent.encode [] path)

def ofText? (t : Text) : Option Uri := do
  let (scheme, rest) ← readScheme? (clean t)
  let (rest, query, fragment) := splitParts rest
  let (authority, path) ← parts? scheme rest
  return ⟨scheme, authority, path, query.map (Percent.encode (queryEscapes (isSpecial scheme))),
    fragment.map (Percent.encode fragmentEscapes)⟩

/-- Two slashes at the start of a path would read as an authority. -/
def display (u : Uri) : String :=
  let path := String.ofList u.path
  let body := match u.authority with
    | some authority => "//" ++ authority ++ path
    | none => if ['/', '/'].isPrefixOf u.path then "/." ++ path else path
  u.scheme ++ ":" ++ body ++ (u.query.elim "" ("?" ++ String.ofList ·)) ++
    (u.fragment.elim "" ("#" ++ String.ofList ·))

end Uri
end Tunebook
