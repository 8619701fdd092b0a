import Tunebook.Command.Arguments
import Tunebook.Command.Listing
import Tunebook.Config
import Tunebook.Document.Journal
import Tunebook.Text.Place
import Tunebook.Text.Quoted
import Tunebook.Text.Utf8

/-! The command `abc`: checks a file, formats it, lists its tokens or beams, or scales its rhythm.
What it answers depends on its arguments and on the files that it may read. -/
namespace Tunebook.Command

inductive ReadError where
  | system (description : String) (code : Nat)
  | notUtf8
  deriving DecidableEq, Repr

namespace ReadError

def missing : ReadError :=
  system "No such file or directory" 2

def notDirectory : ReadError :=
  system "Not a directory" 20

def directory : ReadError :=
  system "Is a directory" 21

def nameTooLong : ReadError :=
  system "File name too long" 36

/-- The reason that the system gives a code for. -/
def ofCode (description : String) (code : Nat) : ReadError :=
  match code with
  | 2 => missing
  | 13 => system "Permission denied" 13
  | 20 => notDirectory
  | 21 => directory
  | 36 => nameTooLong
  | code => system description code

def message : ReadError → String
  | system description code => s!"{description} (os error {code})"
  | notUtf8 => "stream did not contain valid UTF-8"

end ReadError

/-- The bytes of the files, by their paths. -/
abbrev Files := String → Except ReadError (List UInt8)

/-- The text of a file, which has to be valid. -/
def Files.text (files : Files) (path : String) : Except ReadError Text := do
  match Text.ofUtf8? (← files path) with
  | some text => return text
  | none => throw .notUtf8

inductive Failure where
  | configuration (e : Config.LoadError)
  | unreadable (path : String) (why : ReadError)
  | hasErrors (path : String) (count : Nat)
  | invalidRange (range : String)
  deriving DecidableEq, Repr

def Failure.message : Failure → String
  | configuration e => "configuration: " ++ e.message
  | unreadable path why => "cannot read " ++ path ++ ": " ++ why.message
  | hasErrors path count =>
    s!"{path} has {count} error(s); run `abc check {path}` and fix them first"
  | invalidRange range =>
    "invalid range " ++ String.ofList (Text.quoted range.toList) ++ ", expected LINE:COL-LINE:COL"

structure Output where
  text : String
  success : Bool
  deriving DecidableEq, Repr

/-- A reversed path without slashes and single dots ahead. -/
def trimReversed : Text → Text
  | '/' :: cs => trimReversed cs
  | '.' :: '/' :: cs => trimReversed cs
  | cs => cs

/-- The paths at which a file of settings is looked for. What names a directory names a file with an
extension too. -/
def settingsPaths (path : String) : List String :=
  [path, String.ofList (trimReversed path.toList.reverse).reverse ++ ".toml"]

/-- The first file among the paths. -/
def settingsLayer (files : Files) : List String → Config.Layer
  | [] => .unreadable
  | path :: paths =>
    match files path with
    | .ok bytes => .file bytes
    | .error _ => settingsLayer files paths

def loadConfig (files : Files) (i : Invocation) : Except Failure Config :=
  (Config.load (i.config.toList.map (settingsLayer files ∘ settingsPaths))).mapError .configuration

def analyze (files : Files) (config : Config) (path : String) : Except Failure Document :=
  match files.text path with
  | .ok text => .ok (.analyze config.source text)
  | .error why => .error (.unreadable path why)

/-- What there is only without errors. -/
def unlessErrors (path : String) (d : Document) : Option Text → Except Failure Output
  | some text => .ok ⟨String.ofList text, true⟩
  | none => .error (.hasErrors path (d.problems.countP Problem.isError))

/-- A range is read before the file is. -/
def perform (files : Files) (config : Config) (path : String) : Action → Except Failure Output
  | .check => do
    let d ← analyze files config path
    return ⟨problemLines path d, !d.hasErrors⟩
  | .format => do
    let d ← analyze files config path
    unlessErrors path d d.formatted?
  | .tokens beams => do
    let d ← analyze files config path
    return ⟨(if beams then beamListing d else tokenListing d).indented ++ "\n", true⟩
  | .rhythm operator range => do
    let some (start, stop) := Place.readTwo? range.toList | throw (.invalidRange range)
    let d ← analyze files config path
    let edit? := d.scale? ⟨operator, config.limits⟩ (start.position d.text) (stop.position d.text)
    unlessErrors path d (edit?.map fun edit => edit.text ++ ['\n'])

/-- The settings are loaded before all else. -/
def execute (files : Files) (i : Invocation) : Except Failure Output := do
  let config ← loadConfig files i
  perform files config i.path i.action

inductive Answer where
  | stopped (why : Stop)
  | printed (o : Output)
  | failed (f : Failure)
  deriving DecidableEq, Repr

def run (files : Files) (args : List String) : Answer :=
  match Invocation.read args with
  | .error why => .stopped why
  | .ok i =>
    match execute files i with
    | .ok o => .printed o
    | .error f => .failed f

def usage : String :=
  "Check, format and scale ABC music notation\n\n" ++
  "Usage: abc [OPTIONS] <COMMAND>\n\n" ++
  "  abc check <path>                               print the problems\n" ++
  "  abc format <path>                              print the formatted file\n" ++
  "  abc tokens <path> [--beams]                    print the tokens, or the beams, as JSON\n" ++
  "  abc rhythm <path> --op <multiply|divide> --range <LINE:COL-LINE:COL>\n" ++
  "                                                 print the range with its lengths scaled\n" ++
  "  abc help [command]                             print this text\n\n" ++
  "  -c, --config <file>   settings in TOML, over the built-in ones\n" ++
  "  -v, --verbose         log more\n" ++
  "  -h, --help            print this text\n" ++
  "  -V, --version         print the version\n"

namespace Answer

def exitCode : Answer → Nat
  | stopped .rejected => 2
  | stopped _ => 0
  | printed o => if o.success then 0 else 1
  | failed _ => 1

def output : Answer → String
  | stopped .help => usage
  | stopped .version => "abc 0.1.0\n"
  | printed o => o.text
  | _ => ""

def errors : Answer → String
  | stopped .rejected => usage
  | failed f => "abc: " ++ f.message ++ "\n"
  | _ => ""

end Answer

/-- What is noted down at work on a document. -/
def notes (config : Config) (d : Document) : Action → List Journal.Entry
  | .check | .tokens _ => Journal.ofAnalysis d
  | .format => Journal.ofAnalysis d ++ Journal.ofFormatting d
  | .rhythm operator range =>
    match Place.readTwo? range.toList with
    | none => []
    | some (start, stop) =>
      Journal.ofAnalysis d ++ Journal.ofScaling d ⟨operator, config.limits⟩
        (start.position d.text) (stop.position d.text)

/-- What is logged: warnings and errors, and all but traces where more is asked for. -/
def log (files : Files) (i : Invocation) : List Journal.Entry :=
  let entries? : Except Failure (List Journal.Entry) := do
    let config ← loadConfig files i
    return notes config (← analyze files config i.path) i.action
  (entries?.toOption.getD []).filter fun e =>
    if i.verbose then e.level ≠ .trace else e.level = .warn || e.level = .error

/-- The files that an invocation may read. -/
def Invocation.paths (i : Invocation) : List String :=
  i.config.toList.flatMap settingsPaths ++ [i.path]

end Tunebook.Command
