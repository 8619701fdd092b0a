import Tunebook.Grammar

/-! The grammar as a descent with a cursor. The tokens stay where they are and an index moves along
them, so nothing in the program says that it moves at all: a loop ends only if each of its turns takes
a token, and a search ahead only if the list of tokens stops it. Every loop is given the same number
of turns, and a run that would take more has no result, as has one that reads or counts below what
there is. Loops and searches are logged. -/
namespace Tunebook.Descent

/-- The loops that take tokens. -/
inductive Loop where
  | file | header | body | ahead | blankLines | spaces | value
  | musicLine | slur | chord | graceGroup | padding | fieldText
  deriving DecidableEq, Repr

/-- The loops that look ahead and take nothing. -/
inductive Lookahead where
  | tune | blankLine | inlineField | close | parenthesis
  deriving DecidableEq, Repr

inductive Event where
  /-- One turn of a loop, from one place of the cursor to another. -/
  | turn (loop : Loop) (start stop : Nat)
  /-- A search from the cursor on, and where it stopped. -/
  | look (ahead : Lookahead) (stop : Nat)
  /-- A tune took nothing, so one token was dropped behind it. -/
  | recovery (place : Nat)
  deriving DecidableEq, Repr

/-- The state of a run. `depth` counts the slurs around the cursor, and no loop has more than `limit`
turns. -/
structure Cursor where
  tokens : List Token
  limit : Nat
  index : Nat
  depth : Nat
  problems : List Problem
  events : List Event
  deriving DecidableEq, Repr

abbrev Machine := StateT Cursor Option

/-- Past the end of the tokens everything is an end mark. -/
def kindAt (tokens : List Token) (i : Nat) : Kind :=
  (tokens[i]?.map Token.kind).getD .eof

/-- The kinds before which music ends. -/
def endsMusic (k : Kind) : Bool :=
  k = .eof || MusicLine.isBoundary k

section Steps

def peek : Machine Kind := do
  let c ← get
  return kindAt c.tokens c.index

def place : Machine Nat :=
  return (← get).index

/-- The current token. An end mark is never passed. -/
def advance : Machine Token := do
  let c ← get
  let t ← c.tokens[min c.index (c.tokens.length - 1)]?
  if t.kind ≠ .eof then set { c with index := c.index + 1 }
  return t

def accept (p : Kind → Bool) : Machine (Option Token) := do
  if p (← peek) then return some (← advance) else return none

def previous? : Machine (Option Kind) := do
  let c ← get
  return (if c.index = 0 then none else c.tokens[c.index - 1]?).map Token.kind

def atTune : Machine Bool := do
  let c ← get
  return c.tokens[c.index]?.any Token.opensTune

def report (fault : Option Fault) (t : Token) : Machine Unit :=
  modify fun c => { c with problems := c.problems ++ fault.toList.map (⟨·, t⟩) }

/-- The number of slurs around the cursor. -/
def slurs : Machine Nat :=
  return (← get).depth

def log (e : Event) : Machine Unit :=
  modify fun c => { c with events := c.events ++ [e] }

/-- Runs `m` inside a slur. -/
def inSlur (m : Machine α) : Machine α := do
  modify fun c => { c with depth := c.depth + 1 }
  let a ← m
  let c ← get
  if 0 < c.depth then set { c with depth := c.depth - 1 } else failure
  return a

end Steps

section Loops

/-- One turn of a loop. -/
def turn (loop : Loop) (m : Machine α) : Machine α := do
  let start ← place
  let a ← m
  log (.turn loop start (← place))
  return a

/-- What `m` gives, turn by turn, as long as `goes` says so; at most `n` turns. -/
def repeatUpTo (loop : Loop) (goes : Machine Bool) (m : Machine α) : Nat → Machine (List α)
  | 0 => failure
  | n + 1 => do
    if ← goes then
      let a ← turn loop m
      return a :: (← repeatUpTo loop goes m n)
    else return []

def repeated (loop : Loop) (goes : Machine Bool) (m : Machine α) : Machine (List α) := do
  repeatUpTo loop goes m (← get).limit

/-- Whether a token that passes comes next. -/
def follows (p : Kind → Bool) : Machine Bool :=
  return p (← peek)

def acceptAll (loop : Loop) (p : Kind → Bool) : Machine (List Token) :=
  repeated loop (follows p) advance

end Loops

section Searches

/-- The first index from `i` on that holds no space. -/
def skipSpaces (tokens : List Token) : Nat → Nat → Option Nat
  | 0, _ => none
  | n + 1, i => if kindAt tokens i = .whitespace then skipSpaces tokens n (i + 1) else some i

/-- The next token that opens a tune, end marks or not, and where the search stopped. -/
def findTune (tokens : List Token) : Nat → Nat → Option (Option Nat × Nat)
  | 0, _ => none
  | n + 1, i =>
    match tokens[i]? with
    | none => some (none, i)
    | some t => if t.opensTune then some (some i, i) else findTune tokens n (i + 1)

/-- Whether a token of kind `close` comes with nothing before it but what passes. -/
def findClose (close : Kind) (admits : Kind → Bool) (tokens : List Token) :
    Nat → Nat → Option (Bool × Nat)
  | 0, _ => none
  | n + 1, i =>
    let kind := kindAt tokens i
    if kind = close then some (true, i)
    else if admits kind then findClose close admits tokens n (i + 1)
    else some (false, i)

/-- Whether the line closes the parentheses that are open. -/
def findParenthesis (tokens : List Token) : Nat → Nat → Nat → Option (Bool × Nat)
  | 0, _, _ => none
  | n + 1, depth, i =>
    let kind := kindAt tokens i
    if kind = .leftParen then findParenthesis tokens n (depth + 1) (i + 1)
    else if kind = .rightParen then
      match depth with
      | 0 => none
      | depth + 1 => if depth = 0 then some (true, i) else findParenthesis tokens n depth (i + 1)
    else if endsMusic kind then some (false, i)
    else findParenthesis tokens n depth (i + 1)

/-- Searches from the cursor on. -/
def look (ahead : Lookahead) (search : List Token → Nat → Nat → Option (α × Nat)) : Machine α := do
  let c ← get
  let (found, stop) ← search c.tokens c.limit c.index
  log (.look ahead stop)
  return found

def nextTune : Machine (Option Nat) :=
  look .tune findTune

def atBlankLine : Machine Bool :=
  look .blankLine fun tokens limit i => do
    let stop ← skipSpaces tokens limit i
    return ((kindAt tokens stop).isLineEnd, stop)

def atInlineField : Machine Bool :=
  look .inlineField fun tokens limit i => do
    let stop ← skipSpaces tokens limit (i + 1)
    return (InlineField.isLetter (kindAt tokens stop) && kindAt tokens (stop + 1) = .colon, stop)

def isClosed (close : Kind) (admits : Kind → Bool) : Machine Bool :=
  look .close fun tokens limit i => findClose close admits tokens limit (i + 1)

def closesSlur : Machine Bool :=
  look .parenthesis fun tokens limit i => findParenthesis tokens limit 0 i

end Searches

section Notes

def denominator (separator : Option Token) : Machine (Option Token) :=
  if separator.isSome then accept (· = .number) else pure none

def rhythm : Machine Rhythm := do
  let numerator ← accept (· = .number)
  let separator ← accept (· = .slash)
  let denominator ← denominator separator
  let broken ← accept fun k => k = .greater || k = .less
  return ⟨numerator, separator, denominator, broken⟩

def finish (head : NoteHead) : Machine (Except Token Note) := do
  let rhythm ← rhythm
  let tie ← accept (· = .minus)
  return .ok ⟨head, rhythm, tie⟩

def pitch (alteration : Option Token) : Machine (Except Token Note) := do
  let letter ← advance
  let octave ← accept fun k => k = .apostrophe || k = .comma
  finish (.pitch alteration letter octave)

/-- A note, or the token that cannot start one. -/
def note : Machine (Except Token Note) := do
  let alteration ← accept Kind.isAccidental
  let kind ← peek
  if kind = .noteLetter then pitch alteration
  else
    match alteration with
    | some accidental =>
      report (some .danglingAccidental) accidental
      return .error accidental
    | none => if kind = .restLetter then finish (.rest (← advance)) else return .error (← advance)

def chordPart : Machine ChordPart := do
  let kind ← peek
  if kind.startsNote then
    match ← note with
    | .ok own => return .note own
    | .error t => return .token t
  else if kind = .quotedText then return .quotedText (← advance)
  else
    let t ← advance
    report (Chord.fault? t) t
    return .token t

def chord : Machine Chord := do
  let left ← advance
  let parts ← repeated .chord (follows fun k => !(k = .rightBracket || k = .eof)) chordPart
  let right ← advance
  let rhythm ← rhythm
  let tie ← accept (· = .minus)
  let own : Chord := ⟨left, parts, right, rhythm, tie⟩
  report (if own.notes.isEmpty then some .emptyChord else none) left
  return own

def opensChord (kind : Kind) : Machine Bool :=
  if kind = .leftBracket then isClosed .rightBracket Chord.admits else pure false

def gracePart : Machine GracePart := do
  let kind ← peek
  if kind.startsNote then
    match ← note with
    | .ok own => return .note own
    | .error t => return .token t
  else if ← opensChord kind then
    let own ← chord
    report (some .chordInGraceGroup) own.left
    return .chord own
  else
    let t ← advance
    report (if kind = .whitespace then none else some .unexpectedInGraceGroup) t
    return .token t

def graceGroup : Machine GraceGroup := do
  let left ← advance
  let slash ← accept (· = .slash)
  let parts ← repeated .graceGroup (follows fun k => !(k = .rightBrace || k = .eof)) gracePart
  let right ← advance
  return ⟨left, slash, parts, right⟩

end Notes

section Items

def inlineField : Machine InlineField := do
  let depth ← slurs
  let left ← advance
  let padding ← acceptAll .padding (· = .whitespace)
  let field ← advance
  let colon ← advance
  let text ← acceptAll .fieldText fun k =>
    !(endsMusic k || InlineField.endsText (0 < depth) k)
  let right ← accept (· = .rightBracket)
  report (if right.isNone then some .unterminatedInlineField else none) left
  return ⟨left, padding, field, colon, text, right⟩

def bare (fault : Option Fault) : Machine Item := do
  let t ← advance
  report fault t
  return .token t

def bracket : Machine Item := do
  if ← atInlineField then return .inlineField (← inlineField)
  else if ← isClosed .rightBracket Chord.admits then return .chord (← chord)
  else bare (some .unterminatedChord)

def brace : Machine Item := do
  if ← isClosed .rightBrace GraceGroup.admits then return .grace (← graceGroup)
  else bare (some .unterminatedGraceGroup)

def letter : Machine Item := do
  let t ← advance
  if t.isDecorationLetter then return .decoration t
  else
    report (some .unknownLetter) t
    return .token t

def noteItem : Machine Item := do
  match ← note with
  | .ok own => return .note own
  | .error t => return .token t

/-- Any item but a slur. -/
def single : Machine Item := do
  match ← peek with
  | .nthRepeat => return .nthRepeat (← advance)
  | .quotedText => return .quotedText (← advance)
  | .symbol => return .symbol (← advance)
  | .dot | .tilde => return .decoration (← advance)
  | .letter => letter
  | .multiMeasureRest => return .multiMeasureRest (← advance) (← accept (· = .number))
  | .spacerLetter => return .spacer (← advance) (← accept (· = .number))
  | .leftBracket => bracket
  | .leftBrace => brace
  | .number | .slash | .greater | .less => bare (some .detachedRhythm)
  | .minus => bare (some .detachedTie)
  | .rightBracket | .rightBrace => bare (some .unmatchedBracket)
  | kind =>
    if kind.isBarline then return .barline (← advance)
    else if kind.startsNote then noteItem
    else bare none

/-- Whether one more item comes. -/
def atItem (inSlur : Bool) : Machine Bool :=
  follows fun k => !((inSlur && k = .rightParen) || endsMusic k)

/-- An item. A slur holds what `contents` reads. -/
def itemOver (contents : Machine (List Item)) : Machine Item := do
  if (← peek) = .leftParen then
    if ← closesSlur then
      let left ← advance
      let inner ← inSlur contents
      let right ← accept (· = .rightParen)
      return .slur left inner right
    else bare none
  else single

/-- The items of a slur, with slurs nested up to `n` deep. -/
def slurContents : Nat → Machine (List Item)
  | 0 => failure
  | n + 1 => repeated .slur (atItem true) (itemOver (slurContents n))

def item : Machine Item := do
  itemOver (slurContents (← get).limit)

end Items

section Lines

/-- The line feed takes a turn of its own. -/
def musicLine : Machine MusicLine := do
  let items ← repeated .musicLine (atItem false) item
  if (← peek) = .eol then return ⟨items, some (← turn .musicLine advance)⟩ else return ⟨items, none⟩

def infoLine : Machine InfoLine := do
  let key ← advance
  let value ← acceptAll .value InfoLine.isValue
  let comment ← accept Kind.isComment
  let eol ← accept (· = .eol)
  return ⟨key, value, comment, eol⟩

def commentLine : Machine CommentLine := do
  let comment ← advance
  let eol ← accept (· = .eol)
  return ⟨comment, eol⟩

def blankLine : Machine (List Token) := do
  let spaces ← acceptAll .spaces (· = .whitespace)
  let eol ← accept (· = .eol)
  return spaces ++ eol.toList

def atBlank : Machine Bool := do
  if (← peek) = .eof then return false else atBlankLine

def blankLines : Machine (List Token) := do
  return (← repeated .blankLines atBlank blankLine).flatten

/-- Tokens up to the index `stop`. -/
def takeUntil (stop : Nat) : Machine (List Token) :=
  repeated .ahead (return (← place) < stop && (← peek) ≠ .eof) advance

def bodyLine : Machine BodyLine := do
  let kind ← peek
  if kind = .infoKey then return .info (← infoLine)
  else if kind.isComment then return .comment (← commentLine)
  else return .music (← musicLine)

/-- Whether no body goes on here. -/
def endsBody (atLineStart : Bool) : Machine Bool := do
  if (← peek) = .eof then return true
  else if ← atTune then return true
  else if atLineStart then atBlankLine
  else return false

def bodyUpTo : Nat → Bool → Machine (List BodyLine)
  | 0, _ => failure
  | n + 1, atLineStart => do
    if ← endsBody atLineStart then return []
    else
      let line ← turn .body bodyLine
      return line :: (← bodyUpTo n ((← previous?) = some .eol))

def body : Machine (List BodyLine) := do
  if ← endsBody true then return [] else bodyUpTo (← get).limit true

def headerUpTo : Nat → Bool → Machine (List HeaderLine)
  | 0, _ => failure
  | n + 1, isFirst => do
    let kind ← peek
    if kind = .infoKey then
      if !isFirst && (← atTune) then return []
      else
        let line ← turn .header infoLine
        if line.code = 'K' then return [.info line]
        else return .info line :: (← headerUpTo n false)
    else if kind.isComment then
      let line ← turn .header commentLine
      return .comment line :: (← headerUpTo n false)
    else return []

def header : Machine (List HeaderLine) := do
  headerUpTo (← get).limit true

end Lines

section File

def warnMissingKey (opened : Bool) (lines : List HeaderLine) : Machine Unit :=
  if opened && ((⟨lines, [], []⟩ : Tune).field? 'K').isNone then
    match lines.head? with
    | some (.info first) => report (some .missingKey) first.key
    | _ => pure ()
  else pure ()

def trailing : Machine (List Token) := do
  let blank ← blankLines
  match ← nextTune with
  | some next => return blank ++ (← takeUntil next)
  | none => return blank

def tune : Machine Tune := do
  let opened ← atTune
  let lines ← header
  warnMissingKey opened lines
  return ⟨lines, ← body, ← trailing⟩

/-- A tune, with one token dropped behind it if it took none. -/
def wholeTune : Machine Tune := do
  let start ← place
  let own ← tune
  if (← place) = start then
    log (.recovery start)
    return { own with trailing := own.trailing ++ [← advance] }
  else return own

/-- What stands before the first tune. -/
def lead : Machine (List Token) := do
  match ← nextTune with
  | some first => takeUntil first
  | none => blankLines

def file : Machine Tree := do
  return ⟨← lead, ← repeated .file (follows fun k => k ≠ .eof) wholeTune⟩

end File

/-- The tokens with an end mark behind them, if they do not end with one. -/
def closed (tokens : List Token) : List Token :=
  match tokens.getLast? with
  | none => [⟨.eof, [], ⟨0, 0⟩, ⟨0, 0⟩⟩]
  | some last =>
    if last.kind = .eof then tokens
    else tokens ++ [⟨.eof, [], last.stop, ⟨last.span.stop, last.span.stop⟩⟩]

/-- The run over a list of tokens: the tree, and the cursor where it ends. -/
def parse (limit : Nat) (tokens : List Token) : Option (Tree × Cursor) :=
  file.run ⟨closed tokens, limit, 0, 0, [], []⟩

/-- The index of the first end mark. -/
def endMark (tokens : List Token) : Nat :=
  tokens.findIdx (·.kind = .eof)

/-- A turn of a loop takes at least one token and none past the first end mark, a search stops by the
end of the tokens, and nothing has to be recovered from. -/
def Event.Sound (tokens : List Token) : Event → Prop
  | .turn _ start stop => start < stop ∧ stop ≤ endMark tokens
  | .look _ stop => stop ≤ tokens.length
  | .recovery _ => False

end Tunebook.Descent
