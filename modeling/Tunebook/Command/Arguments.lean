import Tunebook.Rhythm.Length

/-! The command line, read argument by argument from left to right: switches of the program, a verb,
then the operand and the switches of the verb. The first thing wrong ends the reading, and so do the
switches that ask for help or for the version. -/
namespace Tunebook.Command

inductive Switch where
  | config | verbose | version | help | beams | operator | range
  deriving DecidableEq, Repr

namespace Switch

def name : Switch → String
  | config => "config"
  | verbose => "verbose"
  | version => "version"
  | help => "help"
  | beams => "beams"
  | operator => "op"
  | range => "range"

/-- The letter that stands for the switch behind one dash. -/
def letter? : Switch → Option Char
  | config => some 'c'
  | verbose => some 'v'
  | version => some 'V'
  | help => some 'h'
  | beams | operator | range => none

def takesValue : Switch → Bool
  | config | operator | range => true
  | verbose | version | help | beams => false

/-- The operator is one of two words, and any text is a file or a range. -/
def operator? (value : String) : Option Operator :=
  [Operator.multiply, .divide].find? (·.label == value)

def accepts (s : Switch) (value : String) : Bool :=
  s ≠ operator || (operator? value).isSome

end Switch

inductive Verb where
  | check | format | tokens | rhythm
  deriving DecidableEq, Repr

namespace Verb

def all : List Verb :=
  [check, format, tokens, rhythm]

def name : Verb → String
  | check => "check"
  | format => "format"
  | tokens => "tokens"
  | rhythm => "rhythm"

def ofName? (name : String) : Option Verb :=
  all.find? (·.name == name)

end Verb

/-- Switches may stand before the verb or after it. -/
inductive Level where
  | program
  | verb (v : Verb)
  deriving DecidableEq, Repr

def Level.switches : Level → List Switch
  | program => [.config, .verbose, .help, .version]
  | verb .check | verb .format => [.config, .verbose, .help]
  | verb .tokens => [.config, .verbose, .help, .beams]
  | verb .rhythm => [.config, .verbose, .help, .operator, .range]

inductive Action where
  | check
  | format
  | tokens (beams : Bool)
  | rhythm (operator : Operator) (range : String)
  deriving DecidableEq, Repr

/-- A command line that was read. -/
structure Invocation where
  config : Option String
  verbose : Bool
  path : String
  action : Action
  deriving DecidableEq, Repr

/-- Why a command line is no invocation. -/
inductive Stop where
  | help
  | version
  | rejected
  deriving DecidableEq, Repr

/-- One argument, by its form. -/
inductive Argument where
  | operand (text : String)
  | endOfSwitches
  | long (name : String) (value : Option String)
  | short (letters : List Char)
  deriving DecidableEq, Repr

namespace Argument

/-- Cuts at the first `=`, which belongs to neither part. -/
def splitValue (body : List Char) : String × Option String :=
  match body.dropWhile (· ≠ '=') with
  | [] => (String.ofList body, none)
  | _ :: value => (String.ofList (body.takeWhile (· ≠ '=')), some (String.ofList value))

/-- A lone dash is an operand. -/
def ofString (arg : String) : Argument :=
  match arg.toList with
  | ['-'] => operand arg
  | ['-', '-'] => endOfSwitches
  | '-' :: '-' :: body => let (name, value) := splitValue body; long name value
  | '-' :: letters => short letters
  | _ => operand arg

end Argument

structure Given where
  switches : List (Switch × String)
  path : Option String
  deriving DecidableEq, Repr

namespace Given

def nothing : Given :=
  ⟨[], none⟩

def has (g : Given) (s : Switch) : Bool :=
  g.switches.any (·.1 = s)

def value? (g : Given) (s : Switch) : Option String :=
  g.switches.lookup s

/-- Takes a switch, which may be given once and with a value that it accepts. -/
def give (g : Given) (s : Switch) (value : String) : Except Stop Given :=
  match s with
  | .help => .error .help
  | .version => .error .version
  | s =>
    if g.has s || !s.accepts value then .error .rejected
    else .ok { g with switches := (s, value) :: g.switches }

/-- Takes the operand, of which there is one. -/
def setPath (g : Given) (path : String) : Except Stop Given :=
  if g.path.isSome then .error .rejected else .ok { g with path := some path }

end Given

/-- What the next argument can be. -/
inductive Expecting where
  | anything
  | value (s : Switch)
  /-- After the end of the switches. -/
  | operand
  deriving DecidableEq, Repr

/-- A switch by its name. One that takes a value and has none waits for it. -/
def readLong (level : Level) (g : Given) (name : String) (value : Option String) :
    Except Stop (Given × Expecting) := do
  match level.switches.find? (·.name == name) with
  | none => throw .rejected
  | some s =>
    match s.takesValue, value with
    | true, some value => return (← g.give s value, .anything)
    | true, none => return (g, .value s)
    | false, none => return (← g.give s "", .anything)
    | false, some _ => throw .rejected

/-- Switches by their letters. One that takes a value takes the rest, without an `=` before it. -/
def readShort (level : Level) (g : Given) : List Char → Except Stop (Given × Expecting)
  | [] => .ok (g, .anything)
  | letter :: letters =>
    match level.switches.find? (·.letter? == some letter) with
    | none => .error .rejected
    | some s =>
      if s.takesValue then
        match letters with
        | [] => .ok (g, .value s)
        | '=' :: value => (·, .anything) <$> g.give s (String.ofList value)
        | value => (·, .anything) <$> g.give s (String.ofList value)
      else g.give s "" >>= fun g => readShort level g letters

/-- Takes the next argument. The value of a switch is an operand in form. -/
def next (level : Level) (g : Given) (expecting : Expecting) (arg : String) :
    Except Stop (Given × Expecting) :=
  match expecting, Argument.ofString arg with
  | .value s, .operand value => (·, .anything) <$> g.give s value
  | .value _, _ => .error .rejected
  | .operand, _ => (·, .operand) <$> g.setPath arg
  | .anything, .operand path => (·, .anything) <$> g.setPath path
  | .anything, .endOfSwitches => .ok (g, .operand)
  | .anything, .long name value => readLong level g name value
  | .anything, .short letters => readShort level g letters

def readAll (level : Level) (g : Given) (expecting : Expecting) : List String → Except Stop Given
  | [] =>
    match expecting with
    | .value _ => .error .rejected
    | _ => .ok g
  | arg :: args => do
    let (g, expecting) ← next level g expecting arg
    readAll level g expecting args

def required (o : Option α) : Except Stop α :=
  o.elim (.error .rejected) .ok

def actionOf (verb : Verb) (g : Given) : Except Stop Action :=
  match verb with
  | .check => .ok .check
  | .format => .ok .format
  | .tokens => .ok (.tokens (g.has .beams))
  | .rhythm => do
    let operator ← required (g.value? .operator >>= Switch.operator?)
    return .rhythm operator (← required (g.value? .range))

/-- Reads what follows a verb. What is given after it goes before what is given ahead of it. -/
def readVerb (before : Given) (verb : Verb) (args : List String) : Except Stop Invocation := do
  let g ← readAll (.verb verb) .nothing .anything args
  let path ← required g.path
  let action ← actionOf verb g
  let config := (g.value? .config).or (before.value? .config)
  return ⟨config, before.has .verbose || g.has .verbose, path, action⟩

/-- Help may be asked for as a verb, for everything or for one verb. -/
def readHelp : List String → Stop
  | [] => .help
  | [topic] => if topic == "help" || (Verb.ofName? topic).isSome then .help else .rejected
  | _ => .rejected

def readProgram (g : Given) (expecting : Expecting) : List String → Except Stop Invocation
  | [] => .error .rejected
  | arg :: args =>
    match expecting, Argument.ofString arg with
    | .anything, .operand name =>
      match Verb.ofName? name with
      | some verb => readVerb g verb args
      | none => .error (if name == "help" then readHelp args else .rejected)
    | .operand, _ => .error .rejected
    | _, _ => do
      let (g, expecting) ← next .program g expecting arg
      readProgram g expecting args

def Invocation.read (args : List String) : Except Stop Invocation :=
  readProgram .nothing .anything args

end Tunebook.Command
